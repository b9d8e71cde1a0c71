import Homegrown.Freestanding.Manipulation

/-!
# Filling memory

`memset` writes one byte over a block, in pieces that may be written twice. Its loops compare
addresses that may lie behind the block: one of them wraps where the block ends too close to the
end of all addresses, and the loop goes on.
-/

namespace Homegrown.Freestanding

/-- Memory after the bytes of a value were written. -/
def Bytes.stored (m : Bytes) (width : Nat) (p : U64) (value : Nat → U8) : Bytes := fun a =>
  if (a - p).toNat < width then value (a - p).toNat else m a

/-- An assignment `*(T *)p = value` to a type of so many bytes. -/
def storeWord (width : Nat) (p : U64) (value : Nat → U8) : Copier Unit :=
  modify fun m => m.stored width p value

theorem storeWord_bind {α : Type} {f : Unit → Copier α} {m : Bytes} {width : Nat} {p : U64}
    {value : Nat → U8} : (storeWord width p value >>= f) m = f () (m.stored width p value) := rfl

/-- The bytes of an integer, which is stored from its low end. -/
def intBytes {w : Nat} (val : BitVec w) (i : Nat) : U8 := val.extractLsb' (8 * i) 8

/-- The bytes of a vector with one value in all its places: `val16` and `val32`. -/
def vectorBytes (x : U8) (_ : Nat) : U8 := x

/-! ## `memset` -/

/-- `small_memset`. -/
def small_memset (s : U64) (c : U32) (n : U64) : Copier U64 := do
  let x : U8 := c.setWidth 8
  if n < 5 then
    if n = 0 then return s
    else
      storeWord 1 s (vectorBytes x)
      storeWord 1 (n - 1 + s) (vectorBytes x)
      if n ≤ 2 then return s
      else
        storeWord 1 (1 + s) (vectorBytes x)
        storeWord 1 (2 + s) (vectorBytes x)
        return s
  else if n ≤ 16 then
    let val8 : U64 := 0x0101010101010101 * x.setWidth 64
    if 8 ≤ n then
      storeWord 8 s (intBytes val8)
      storeWord 8 (s + n - 8) (intBytes val8)
      return s
    else
      let val4 : U32 := val8.setWidth 32
      storeWord 4 s (intBytes val4)
      storeWord 4 (s + n - 4) (intBytes val4)
      return s
  else
    storeWord 16 (s + n - 16) (vectorBytes x)
    storeWord 16 s (vectorBytes x)
    return s

/-- An assignment `*(U8_32a *)p = val32`, which fails where `p` is not aligned, and the advance of
`p` behind it. -/
def stampAligned (x : U8) (p : U64) : Copier U64 := do
  if p % 32 = 0 then
    storeWord 32 p (vectorBytes x)
    return p + 32
  else throw ()

/-- A round of the unrolled loop. -/
def unrolledRound (buffer_end : U64) (x : U8) (p : U64) : Copier (U64 ⊕ U64) := do
  if p + 32 * 5 < buffer_end then
    let p ← stampAligned x p
    let p ← stampAligned x p
    let p ← stampAligned x p
    let p ← stampAligned x p
    let p ← stampAligned x p
    return .inl p
  else return .inr p

/-- `TRY_STAMP_32_BYTES`. -/
def tryStamp32Bytes (last_word : U64) (x : U8) (p : U64) : Copier U64 := do
  if p < last_word then stampAligned x p
  else return p

/-- `huge_memset` behind its loop. -/
def stampRest (last_word : U64) (x : U8) (p : U64) : Copier Unit := do
  let p ← tryStamp32Bytes last_word x p
  let p ← tryStamp32Bytes last_word x p
  let p ← tryStamp32Bytes last_word x p
  let _ ← tryStamp32Bytes last_word x p
  storeWord 32 last_word (vectorBytes x)

/-- `huge_memset`. -/
def huge_memset (rounds : Nat) (s : U64) (c : U32) (n : U64) : Copier U64 := do
  let x : U8 := c.setWidth 8
  storeWord 32 s (vectorBytes x)
  let first_aligned := s + 32 - s % 32
  let buffer_end := s + n
  let last_word := buffer_end - 32
  let p ← loop () (unrolledRound buffer_end x) rounds first_aligned
  stampRest last_word x p
  return s

/-- A round of the loop of `memset`. -/
def stampChunk (last_word : U64) (x : U8) (p : U64) : Copier (U64 ⊕ Unit) := do
  storeWord 32 p (vectorBytes x)
  if p + 32 < last_word then return .inl (p + 32)
  else return .inr ()

/-- `memset`. -/
def memset (rounds : Nat) (s : U64) (c : U32) (n : U64) : Copier U64 := do
  let x : U8 := c.setWidth 8
  if n < 32 then small_memset s c n
  else if 160 < n then huge_memset rounds s c n
  else
    let last_word := s + n - 32
    loop () (stampChunk last_word x) rounds s
    storeWord 32 last_word (vectorBytes x)
    return s

/-! ## Pieces -/

section Pieces

variable {s p k n : U64} {m m₀ : Bytes} {I : Set U64} {x : U8} {w : Nat} {value : Nat → U8}

/-- A store of one byte again and again fills what it covers. -/
theorem filled_stored (hvalue : ∀ i < w, value i = x) :
    Filled p (between 0 w) x m (m.stored w p value) := by
  refine ⟨fun a ha => ?_, fun a ha => if_neg fun hlt => ha ⟨Nat.zero_le _, hlt⟩⟩
  rw [Bytes.stored, if_pos ha.2]
  exact hvalue _ ha.2

/-- A piece is added to what was filled. -/
theorem filled_join (h : Filled s I x m₀ m) (hk : k.toNat + w ≤ 2 ^ 64)
    (hvalue : ∀ i < w, value i = x) :
    Filled s (I ∪ between k.toNat (k.toNat + w)) x m₀ (m.stored w (k + s) value) := by
  refine (h.trans (filled_stored hvalue)).congr fun y => ?_
  have hy := y.isLt
  simp only [Set.mem_union, Set.mem_ofPred_eq, mem_between, BitVec.toNat_sub]
  have hpiece : (0 ≤ (2 ^ 64 - k.toNat + y.toNat) % 2 ^ 64 ∧
      (2 ^ 64 - k.toNat + y.toNat) % 2 ^ 64 < w) ↔ k.toNat ≤ y.toNat ∧ y.toNat < k.toNat + w := by
    omega
  rw [hpiece]

/-- A piece from each end, which may overlap. -/
theorem filled_ends (hle : w ≤ n.toNat) (hvalue : ∀ i < w, value i = x) :
    Filled s (between 0 w ∪ between (n.toNat - w) n.toNat) x m
      ((m.stored w s value).stored w (n - BitVec.ofNat 64 w + s) value) := by
  have hn := n.isLt
  have hk := toNat_sub_ofNat hle
  refine (filled_join (filled_stored hvalue) (k := n - BitVec.ofNat 64 w) (by omega)
    hvalue).congr fun j => ?_
  rw [hk, Nat.sub_add_cancel hle]

/-- Two stores, one from either end, cover what is no longer than both. -/
theorem filled_ends_cover (hle : w ≤ n.toNat) (hge : n.toNat ≤ 2 * w)
    (hvalue : ∀ i < w, value i = x) :
    Filled s (between 0 n.toNat) x m
      ((m.stored w s value).stored w (n - BitVec.ofNat 64 w + s) value) := by
  refine (filled_ends hle hvalue).congr fun j => ?_
  simp only [Set.mem_union, mem_between]
  omega

/-- Every byte of `val8` is the value to fill with. -/
theorem intBytes_val8 : ∀ x : U8, ∀ i < 8,
    intBytes (0x0101010101010101 * x.setWidth 64 : U64) i = x := by
  decide +kernel

/-- `val4` is the low half of `val8`. -/
theorem intBytes_val4 : ∀ x : U8, ∀ i < 4,
    intBytes ((0x0101010101010101 * x.setWidth 64 : U64).setWidth 32) i = x := by
  decide +kernel

end Pieces

/-! ## Short blocks -/

section Memset

variable {s p k n : U64} {c : U32} {m m₀ : Bytes} {x : U8} {rounds : Nat}

/-- Blocks of less than 32 bytes are filled from both ends. -/
theorem small_memset_returns (hshort : n.toNat < 32) :
    ReturnsWith (small_memset s c n m) fun r m' =>
      r = s ∧ Filled s (between 0 n.toNat) (c.setWidth 8) m m' := by
  have hplace : ∀ a w : U64, a + n - w = n - w + a := fun a w => by ring
  have hvector : ∀ w, ∀ i < w, vectorBytes (c.setWidth 8) i = c.setWidth 8 := fun _ _ _ => rfl
  rw [small_memset]
  dsimp only
  split
  · split
    · rename_i hzero
      refine ReturnsWith.pure ⟨rfl, Filled.none.congr fun j => ?_⟩
      rw [hzero]
      simp [between]
    · rename_i hne
      have hpos : 1 ≤ n.toNat := Nat.one_le_iff_ne_zero.mpr fun h0 =>
        hne (BitVec.eq_of_toNat_eq h0)
      rw [storeWord_bind, storeWord_bind]
      split
      · rename_i htwo
        exact ReturnsWith.pure ⟨rfl, filled_ends_cover hpos htwo (hvector 1)⟩
      · rename_i hlt htwo
        have hlt : n.toNat < 5 := hlt
        have htwo : ¬ n.toNat ≤ 2 := htwo
        rw [storeWord_bind, storeWord_bind]
        have hends := filled_ends (s := s) (m := m) hpos (hvector 1)
        have hone := filled_join (k := 1) hends (by decide) (hvector 1)
        have hall := filled_join (k := 2) hone (by decide) (hvector 1)
        refine ReturnsWith.pure ⟨rfl, hall.congr fun j => ?_⟩
        simp only [Set.mem_union, mem_between]
        change (_ ∨ (1 ≤ _ ∧ _ < 1 + 1)) ∨ (2 ≤ _ ∧ _ < 2 + 1) ↔ _
        omega
  · rename_i hfive
    have hfive : ¬ n.toNat < 5 := hfive
    split
    · rename_i hsixteen
      have hsixteen : n.toNat ≤ 16 := hsixteen
      split
      · rename_i height
        rw [storeWord_bind, storeWord_bind, hplace]
        exact ReturnsWith.pure ⟨rfl, filled_ends_cover height hsixteen (intBytes_val8 _)⟩
      · rename_i height
        have height : ¬ 8 ≤ n.toNat := height
        rw [storeWord_bind, storeWord_bind, hplace]
        exact ReturnsWith.pure ⟨rfl, filled_ends_cover (w := 4) (by omega) (by omega)
          (intBytes_val4 _)⟩
    · rename_i hsixteen
      have hsixteen : ¬ n.toNat ≤ 16 := hsixteen
      have hsub : (n - 16).toNat = n.toNat - 16 := toNat_sub_ofNat (show 16 ≤ n.toNat by omega)
      have hn := n.isLt
      rw [storeWord_bind, storeWord_bind, hplace]
      have hlast := filled_join (k := n - 16) (s := s) (Filled.none (m := m)) (w := 16) (by omega)
        (hvector 16)
      have hall := filled_join (k := 0) hlast (by decide) (hvector 16)
      rw [zero_add] at hall
      refine ReturnsWith.pure ⟨rfl, hall.congr fun j => ?_⟩
      simp only [Set.mem_union, Set.mem_empty_iff_false, false_or, mem_between, hsub]
      change _ ∨ (0 ≤ _ ∧ _ < 0 + 16) ↔ _
      omega

/-! ## Blocks of chunks -/

/-- The last chunk is filled from the end. -/
theorem filled_last {k : Nat} (h : Filled s (between 0 k) x m₀ m) (hle : 32 ≤ n.toNat) :
    Filled s (between 0 k ∪ between (n.toNat - 32) n.toNat) x m₀
      (m.stored 32 (s + n - 32) (vectorBytes x)) := by
  have hn := n.isLt
  have hk : (n - 32).toNat = n.toNat - 32 := toNat_sub_ofNat hle
  have hjoin := filled_join h (k := n - 32) (w := 32) (by omega) fun i _ => rfl
  rw [hk, Nat.sub_add_cancel hle] at hjoin
  have hplace : s + n - 32 = n - 32 + s := by ring
  rw [hplace]
  exact hjoin

/-- The last store covers what is left. -/
theorem filled_cover {k : Nat} (h : Filled s (between 0 k) x m₀ m) (hle : 32 ≤ n.toNat)
    (hk : k ≤ n.toNat) (hcover : n.toNat ≤ k + 32) :
    Filled s (between 0 n.toNat) x m₀ (m.stored 32 (s + n - 32) (vectorBytes x)) := by
  refine (filled_last h hle).congr fun j => ?_
  simp only [Set.mem_union, mem_between]
  omega

/-- One more piece behind those that were filled. -/
theorem filled_succ (h : Filled s (between 0 k.toNat) x m₀ m) (hk : k.toNat + 32 ≤ 2 ^ 64) :
    Filled s (between 0 (k.toNat + 32)) x m₀ (m.stored 32 (k + s) (vectorBytes x)) := by
  refine (filled_join h hk fun i _ => rfl).congr fun j => ?_
  simp only [Set.mem_union, mem_between]
  omega

/-- The loop of `memset`: no address it compares wraps, unless the block is a single chunk at the
end of all addresses. -/
theorem stampChunk_returns (hlong : 32 ≤ n.toNat) (hend : s.toNat + n.toNat ≤ 2 ^ 64)
    (hchunk : n.toNat = 32 → s.toNat + n.toNat < 2 ^ 64) (hrounds : n.toNat < rounds) :
    ReturnsWith (loop () (stampChunk (s + n - 32) x) rounds s m) fun _ m' =>
      ∃ k, k ≤ n.toNat ∧ n.toNat ≤ k + 32 ∧ Filled s (between 0 k) x m m' := by
  have hn := n.isLt
  refine loop_returns (fun p m' => ∃ k : U64, p = k + s ∧ k.toNat + 32 ≤ n.toNat ∧
    (k.toNat + 32 = n.toNat → s.toNat + n.toNat < 2 ^ 64) ∧ Filled s (between 0 k.toNat) x m m')
    (fun p _ => (n - (p - s)).toNat) ?_
    ⟨0, by simp, hlong, fun h => hchunk (by simpa using h.symm),
      Filled.none.congr fun j => by simp [between]⟩ (by simpa using hrounds)
  rintro p m' ⟨k, rfl, hk, hwrap, hfilled⟩
  have hnext : (k + 32).toNat = (k.toNat + 32) % 2 ^ 64 := by
    rw [BitVec.toNat_add]
    rfl
  have hp : k + s + 32 = k + 32 + s := by ring
  have hlt : k + 32 + s < s + n - 32 ↔ k.toNat + 64 < n.toNat := by
    rw [BitVec.lt_def, BitVec.toNat_add, hnext, BitVec.toNat_sub, BitVec.toNat_add]
    have h32 : (32 : U64).toNat = 32 := rfl
    omega
  have hstored := filled_succ hfilled (by omega)
  rw [stampChunk, storeWord_bind, hp]
  split
  · rename_i hmore
    have hmore := hlt.mp hmore
    have hnext : (k + 32).toNat = k.toNat + 32 := by omega
    refine ReturnsWith.pure ⟨⟨k + 32, rfl, by omega, by omega, ?_⟩, ?_⟩
    · rw [hnext]
      exact hstored
    · rw [add_sub_cancel_right, add_sub_cancel_right, BitVec.toNat_sub, BitVec.toNat_sub, hnext]
      omega
  · rename_i hmore
    have hmore := mt hlt.mpr hmore
    exact ReturnsWith.pure ⟨k.toNat + 32, hk, by omega, hstored⟩

/-! ## Long blocks -/

/-- How far the first aligned address lies behind the start. -/
def alignGap (s : U64) : Nat := 32 - s.toNat % 32

/-- Where the first round of the unrolled loop would end that reaches the end of the block. -/
def roundsEnd (s n : U64) : Nat :=
  s.toNat + alignGap s + roundUp (n.toNat - alignGap s) 160

/-- The block is filled up to an aligned address, and at least its first chunk is. -/
structure Stamped (s : U64) (x : U8) (m₀ : Bytes) (k : Nat) (p : U64) (m : Bytes) : Prop where
  p : p = BitVec.ofNat 64 k + s
  aligned : (s.toNat + k) % 32 = 0
  pos : 0 < k
  filled : Filled s (between 0 (max 32 k)) x m₀ m

section Stamp

variable {k : Nat}

/-- The address behind the bytes that are stamped. -/
theorem Stamped.toNat_p (h : Stamped s x m₀ k p m) : p.toNat = (s.toNat + k) % 2 ^ 64 := by
  rw [h.p, BitVec.toNat_add, BitVec.toNat_ofNat]
  omega

/-- A stamp fills the next 32 bytes. -/
theorem Stamped.stampAligned (h : Stamped s x m₀ k p m) (hk : k + 32 ≤ 2 ^ 64) :
    ReturnsWith (stampAligned x p m) fun p' m' => Stamped s x m₀ (k + 32) p' m' := by
  have haligned := h.aligned
  have hpos := h.pos
  have hp : p % 32 = 0 := by
    apply BitVec.eq_of_toNat_eq
    rw [BitVec.toNat_umod, h.toNat_p]
    change _ % 32 = 0
    omega
  rw [Freestanding.stampAligned, if_pos hp, storeWord_bind]
  refine ReturnsWith.pure ⟨?_, by omega, by omega, ?_⟩
  · rw [h.p, BitVec.ofNat_add]
    exact add_right_comm _ _ _
  · have hoffset : (BitVec.ofNat 64 k).toNat = k := by
      rw [BitVec.toNat_ofNat]
      omega
    rw [h.p]
    refine (filled_join h.filled (k := BitVec.ofNat 64 k) (by omega) fun i _ => rfl).congr
      fun j => ?_
    simp only [Set.mem_union, mem_between]
    omega

/-- A round of the unrolled loop stamps five chunks. -/
theorem Stamped.unrolledRound (h : Stamped s x m₀ k p m) (hend : s.toNat + n.toNat < 2 ^ 64)
    (hk : s.toNat + k + 160 < 2 ^ 64) :
    ReturnsWith (unrolledRound (s + n) x p m) fun r m' => match r with
      | .inl p' => k + 160 < n.toNat ∧ Stamped s x m₀ (k + 160) p' m'
      | .inr p' => n.toNat ≤ k + 160 ∧ Stamped s x m₀ k p' m' := by
  have hlt : p + 32 * 5 < s + n ↔ k + 160 < n.toNat := by
    have h160 : (32 * 5 : U64).toNat = 160 := rfl
    rw [BitVec.lt_def, BitVec.toNat_add, BitVec.toNat_add, h.toNat_p, h160]
    omega
  rw [Freestanding.unrolledRound]
  split
  · rename_i hmore
    refine (h.stampAligned (by omega)).bind fun p m h => ?_
    refine (h.stampAligned (by omega)).bind fun p m h => ?_
    refine (h.stampAligned (by omega)).bind fun p m h => ?_
    refine (h.stampAligned (by omega)).bind fun p m h => ?_
    refine (h.stampAligned (by omega)).bind fun p m h => ?_
    exact ReturnsWith.pure ⟨hlt.mp hmore, h⟩
  · rename_i hmore
    exact ReturnsWith.pure ⟨not_lt.mp (mt hlt.mpr hmore), h⟩

/-- One more chunk is stamped, unless the last one covers the rest. -/
theorem Stamped.tryStamp (h : Stamped s x m₀ k p m) (hend : s.toNat + n.toNat ≤ 2 ^ 64)
    (hlong : 32 ≤ n.toNat) (hk : k < n.toNat) :
    ReturnsWith (tryStamp32Bytes (s + n - 32) x p m) fun p' m' => ∃ k' ≤ k + 32, k' < n.toNat ∧
      (n.toNat ≤ k' + 32 ∨ k' = k + 32) ∧ Stamped s x m₀ k' p' m' := by
  have hn := n.isLt
  have hlt : p < s + n - 32 ↔ k + 32 < n.toNat := by
    have h32 : (32 : U64).toNat = 32 := rfl
    rw [BitVec.lt_def, BitVec.toNat_sub, BitVec.toNat_add, h.toNat_p, h32]
    omega
  rw [tryStamp32Bytes]
  split
  · rename_i hmore
    have hmore := hlt.mp hmore
    exact (h.stampAligned (by omega)).weaken fun p' m' h' =>
      ⟨k + 32, le_rfl, hmore, .inr rfl, h'⟩
  · rename_i hmore
    have hmore := mt hlt.mpr hmore
    exact ReturnsWith.pure ⟨k, by omega, hk, .inl (by omega), h⟩

/-- Behind the loop at most five more chunks are stamped, the last of them from the end. -/
theorem Stamped.stampRest (h : Stamped s x m₀ k p m) (hend : s.toNat + n.toNat ≤ 2 ^ 64)
    (hlong : 32 ≤ n.toNat) (hk : k < n.toNat) :
    ReturnsWith (stampRest (s + n - 32) x p m) fun _ m' => ∃ k' ≤ k + 128, k' < n.toNat ∧
      (n.toNat ≤ k' + 32 ∨ k' = k + 128) ∧
        Filled s (between 0 (max 32 k') ∪ between (n.toNat - 32) n.toNat) x m₀ m' := by
  refine (h.tryStamp hend hlong hk).bind fun p₁ m₁ ⟨k₁, hle₁, hlt₁, hor₁, h₁⟩ => ?_
  refine (h₁.tryStamp hend hlong hlt₁).bind fun p₂ m₂ ⟨k₂, hle₂, hlt₂, hor₂, h₂⟩ => ?_
  refine (h₂.tryStamp hend hlong hlt₂).bind fun p₃ m₃ ⟨k₃, hle₃, hlt₃, hor₃, h₃⟩ => ?_
  refine (h₃.tryStamp hend hlong hlt₃).bind fun p₄ m₄ ⟨k₄, hle₄, hlt₄, hor₄, h₄⟩ => ?_
  exact ReturnsWith.modify ⟨k₄, by omega, hlt₄, by omega, filled_last h₄.filled hlong⟩

end Stamp

/-- The gap leads to the next multiple of 32, and there is always one. -/
theorem alignGap_bounds (s : U64) : 0 < alignGap s ∧ alignGap s ≤ 32 ∧
    (s.toNat + alignGap s) % 32 = 0 := by
  rw [alignGap]
  omega

/-- The first chunk, and the address that is aligned behind it. -/
theorem stamped_first :
    Stamped s x m (alignGap s) (s + 32 - s % 32) (m.stored 32 s (vectorBytes x)) := by
  obtain ⟨hpos, hle, haligned⟩ := alignGap_bounds s
  refine ⟨?_, haligned, hpos, ?_⟩
  · apply BitVec.eq_of_toNat_eq
    have h32 : (32 : U64).toNat = 32 := rfl
    rw [BitVec.toNat_add, BitVec.toNat_sub, BitVec.toNat_add, BitVec.toNat_umod,
      BitVec.toNat_ofNat, h32, alignGap]
    omega
  · rw [max_eq_left hle]
    exact filled_stored fun _ _ => rfl

/-- Blocks of more than 160 bytes are filled, where no address that the loop compares wraps. -/
theorem huge_memset_returns (hlong : 160 < n.toNat) (hend : roundsEnd s n < 2 ^ 64)
    (hrounds : n.toNat < rounds) :
    ReturnsWith (huge_memset rounds s c n m) fun r m' =>
      r = s ∧ Filled s (between 0 n.toNat) (c.setWidth 8) m m' := by
  obtain ⟨hpos, hle, haligned⟩ := alignGap_bounds s
  rw [roundsEnd, roundUp] at hend
  have hwrap : s.toNat + n.toNat < 2 ^ 64 := by omega
  have hloop : ReturnsWith (loop () (unrolledRound (s + n) (c.setWidth 8)) rounds
      (s + 32 - s % 32) (m.stored 32 s (vectorBytes (c.setWidth 8)))) fun p m' =>
        ∃ k < n.toNat, n.toNat ≤ k + 160 ∧ Stamped s (c.setWidth 8) m k p m' := by
    refine loop_returns (fun p m' => ∃ i, alignGap s + 160 * i < n.toNat ∧
      Stamped s (c.setWidth 8) m (alignGap s + 160 * i) p m') (fun p _ => (n - (p - s)).toNat) ?_
      ⟨0, by omega, stamped_first⟩ ?_
    · rintro p m' ⟨i, hi, hstamped⟩
      refine (hstamped.unrolledRound hwrap (by omega)).weaken fun r m'' hr => ?_
      cases r with
      | inl p' =>
        refine ⟨⟨i + 1, by omega, ?_⟩, ?_⟩
        · rw [Nat.mul_add, ← Nat.add_assoc]
          exact hr.2
        · rw [BitVec.toNat_sub, BitVec.toNat_sub, BitVec.toNat_sub n, BitVec.toNat_sub p,
            hr.2.toNat_p, hstamped.toNat_p]
          omega
      | inr p' => exact ⟨_, hi, hr.1, hr.2⟩
    · have h32 : (32 : U64).toNat = 32 := rfl
      rw [BitVec.toNat_sub, BitVec.toNat_sub, (stamped_first (m := m) (x := 0)).toNat_p]
      omega
  rw [huge_memset]
  dsimp only
  rw [storeWord_bind]
  refine hloop.bind fun p m' hstamped => ?_
  obtain ⟨k, hk, hlast, hstamped⟩ := hstamped
  refine (hstamped.stampRest hwrap.le (by omega) hk).bind fun _ m'' hfilled => ?_
  obtain ⟨k', -, hk', hor, hfilled⟩ := hfilled
  refine ReturnsWith.pure ⟨rfl, hfilled.congr fun j => ?_⟩
  simp only [Set.mem_union, mem_between]
  omega

/-! ## Where the loops go on -/

/-- A store of the byte leaves a byte that is it already. -/
theorem stored_keeps {e : U64} {w : Nat} (h : m e = x) : m.stored w p (vectorBytes x) e = x := by
  rw [Bytes.stored]
  split
  · rfl
  · exact h

/-- So does the store as a step of the program. -/
theorem storeWord_keeps {e : U64} {w : Nat} :
    Ensures (fun m : Bytes => m e = x) (storeWord w p (vectorBytes x)) fun _ m => m e = x :=
  Ensures.modify fun _ h => stored_keeps h

/-- A byte was stamped, or it lies less than so many chunks behind an address. -/
def StampedWithin (e : U64) (x : U8) (i : Nat) (p : U64) (m : Bytes) : Prop :=
  m e = x ∨ (e - p).toNat < 32 * i

/-- One stamp uses up one of those that are left. -/
theorem stampAligned_within {e : U64} {i : Nat} {p' : U64} {m' : Bytes}
    (hrun : stampAligned x p m = .ok p' m') :
    p' = p + 32 ∧ (StampedWithin e x (i + 1) p m → StampedWithin e x i p' m') := by
  rw [stampAligned] at hrun
  split at hrun
  · obtain ⟨_, m₁, hstore, hrun⟩ := bind_eq_ok.mp hrun
    obtain ⟨rfl, rfl⟩ := pure_eq_ok.mp hrun
    obtain rfl := modify_eq_ok.mp hstore
    refine ⟨rfl, fun hwithin => ?_⟩
    rw [StampedWithin, Bytes.stored]
    by_cases hin : (e - p).toNat < 32
    · left
      rw [if_pos hin]
      rfl
    · rw [if_neg hin]
      rcases hwithin with hset | hleft
      · exact .inl hset
      · right
        have hsub : e - (p + 32) = e - p - 32 := by ring
        have h32 : (32 : U64).toNat = 32 := rfl
        rw [hsub, BitVec.toNat_sub, h32]
        omega
  · exact (throw_eq_ok.mp hrun).elim

/-- The try for 32 bytes leaves a byte that is the value already. -/
theorem tryStamp32Bytes_keeps {e last_word : U64} :
    Ensures (fun m : Bytes => m e = x) (tryStamp32Bytes last_word x p) fun _ m => m e = x := by
  rw [tryStamp32Bytes]
  split
  · intro m p' m' h hrun
    exact ((stampAligned_within (i := 0) hrun).2 (.inl h)).resolve_right (Nat.not_lt_zero _)
  · exact Ensures.pure fun _ h => h

/-- So does the stamping of the rest. -/
theorem stampRest_keeps {e last_word : U64} :
    Ensures (fun m : Bytes => m e = x) (stampRest last_word x p) fun _ m => m e = x :=
  tryStamp32Bytes_keeps.bind fun _ => tryStamp32Bytes_keeps.bind fun _ =>
    tryStamp32Bytes_keeps.bind fun _ => tryStamp32Bytes_keeps.bind fun _ => storeWord_keeps

/-- A round of the unrolled loop stamps what lies within five chunks. -/
theorem unrolledRound_within {e buffer_end : U64} {r : U64 ⊕ U64} {m' : Bytes}
    (hrun : unrolledRound buffer_end x p m = .ok r m') : match r with
      | .inl p' => p + 32 * 5 < buffer_end ∧ p' = p + 32 * 5 ∧
        (StampedWithin e x 5 p m → m' e = x)
      | .inr _ => ¬ p + 32 * 5 < buffer_end ∧ m' = m := by
  rw [unrolledRound] at hrun
  split at hrun
  · rename_i hmore
    obtain ⟨p₁, m₁, h₁, hrun⟩ := bind_eq_ok.mp hrun
    obtain ⟨p₂, m₂, h₂, hrun⟩ := bind_eq_ok.mp hrun
    obtain ⟨p₃, m₃, h₃, hrun⟩ := bind_eq_ok.mp hrun
    obtain ⟨p₄, m₄, h₄, hrun⟩ := bind_eq_ok.mp hrun
    obtain ⟨p₅, m₅, h₅, hrun⟩ := bind_eq_ok.mp hrun
    obtain ⟨rfl, rfl⟩ := pure_eq_ok.mp hrun
    obtain ⟨rfl, hs₁⟩ := stampAligned_within (e := e) (i := 4) h₁
    obtain ⟨rfl, hs₂⟩ := stampAligned_within (e := e) (i := 3) h₂
    obtain ⟨rfl, hs₃⟩ := stampAligned_within (e := e) (i := 2) h₃
    obtain ⟨rfl, hs₄⟩ := stampAligned_within (e := e) (i := 1) h₄
    obtain ⟨rfl, hs₅⟩ := stampAligned_within (e := e) (i := 0) h₅
    refine ⟨hmore, by ring, fun h => ?_⟩
    exact (hs₅ (hs₄ (hs₃ (hs₂ (hs₁ h))))).resolve_right (Nat.not_lt_zero _)
  · rename_i hdone
    obtain ⟨rfl, rfl⟩ := pure_eq_ok.mp hrun
    exact ⟨hdone, rfl⟩

/-- Where an address that the unrolled loop compares wraps, the byte behind the block is set. -/
theorem unrolled_overruns (hlong : 160 < n.toNat) (hend : s.toNat + n.toNat < 2 ^ 64)
    (hrounds : 2 ^ 64 ≤ roundsEnd s n) :
    Ensures (fun _ : Bytes => True) (loop () (unrolledRound (s + n) x) rounds (s + 32 - s % 32))
      fun _ m => m (s + n) = x := by
  obtain ⟨hpos, hle, haligned⟩ := alignGap_bounds s
  rw [roundsEnd, roundUp] at hrounds
  have hfirst : s + 32 - s % 32 = BitVec.ofNat 64 (alignGap s + 160 * 0) + s :=
    (stamped_first (m := fun _ => 0) (x := 0)).p
  intro m p' m' _ hrun
  refine @Ensures.loop _ _ _ _ _ _ (fun p m => m (s + n) = x ∨
    ∃ i, p = BitVec.ofNat 64 (alignGap s + 160 * i) + s ∧ alignGap s + 160 * i < n.toNat)
    (fun _ m => m (s + n) = x) (fun p m r m' hinv hround => ?_) rounds _ m p' m'
    (.inr ⟨0, hfirst, by omega⟩) hrun
  rcases hinv with hset | ⟨i, rfl, hi⟩
  · have hround := unrolledRound_within (e := s + n) hround
    cases r with
    | inl p' => exact .inl (hround.2.2 (.inl hset))
    | inr p' =>
      change m' (s + n) = x
      rw [hround.2]
      exact hset
  · have hround := unrolledRound_within (e := s + n) hround
    have h160 : (32 * 5 : U64).toNat = 160 := rfl
    have hp : (BitVec.ofNat 64 (alignGap s + 160 * i) + s).toNat =
        s.toNat + (alignGap s + 160 * i) := by
      rw [BitVec.toNat_add, BitVec.toNat_ofNat]
      omega
    have hend : (s + n).toNat = s.toNat + n.toNat := by
      rw [BitVec.toNat_add, Nat.mod_eq_of_lt hend]
    -- No comparison stops the loop before one of them wraps.
    have hshort : s.toNat + (alignGap s + 160 * i) + 160 < 2 ^ 64 →
        alignGap s + 160 * i + 160 < n.toNat := by
      omega
    cases r with
    | inl p' =>
      obtain ⟨hmore, rfl, hset⟩ := hround
      by_cases hwrap : s.toNat + (alignGap s + 160 * i) + 160 < 2 ^ 64
      · have hshort := hshort hwrap
        refine .inr ⟨i + 1, ?_, by omega⟩
        have hnext : BitVec.ofNat 64 (alignGap s + 160 * (i + 1)) =
            BitVec.ofNat 64 (alignGap s + 160 * i) + 32 * 5 := by
          apply BitVec.eq_of_toNat_eq
          rw [BitVec.toNat_add, BitVec.toNat_ofNat, BitVec.toNat_ofNat, h160]
          omega
        rw [hnext, add_right_comm]
      · refine .inl (hset (.inr ?_))
        rw [BitVec.toNat_sub, hp, hend]
        omega
    | inr p' =>
      refine absurd ?_ hround.1
      rw [BitVec.lt_def, BitVec.toNat_add, hp, hend, h160]
      omega

/-- A single chunk at the end of all addresses is followed by one at their start. -/
theorem chunks_overrun (hlong : n.toNat = 32) (hend : s.toNat + n.toNat = 2 ^ 64) :
    Ensures (fun _ : Bytes => True) (loop () (stampChunk (s + n - 32) x) rounds s)
      fun _ m => m (s + n) = x := by
  have hzero : s + 32 = 0 := by
    apply BitVec.eq_of_toNat_eq
    rw [BitVec.toNat_add]
    change (_ + 32) % 2 ^ 64 = 0
    omega
  have hn : n = 32 := BitVec.eq_of_toNat_eq hlong
  have hlast : s + n - 32 = s := by rw [hn, add_sub_cancel_right]
  rw [hlast, hn, hzero]
  intro m r m' _ hrun
  refine @Ensures.loop _ _ _ _ _ _ (fun p m => p = s ∨ p = 0 ∨ m 0 = x)
    (fun _ m => m 0 = x) (fun p m r m' hinv hround => ?_) rounds s m r m'
    (.inl rfl) hrun
  rw [stampChunk, storeWord_bind] at hround
  have hset : p = 0 ∨ m 0 = x → (m.stored 32 p (vectorBytes x)) 0 = x := by
    rintro (rfl | hset)
    · rfl
    · exact stored_keeps hset
  split at hround
  · obtain ⟨rfl, rfl⟩ := pure_eq_ok.mp hround
    rcases hinv with rfl | hinv
    · exact .inr (.inl hzero)
    · exact .inr (.inr (hset hinv))
  · rename_i hdone
    obtain ⟨rfl, rfl⟩ := pure_eq_ok.mp hround
    rcases hinv with rfl | hinv
    · refine absurd ?_ hdone
      rw [hzero, BitVec.lt_def]
      change 0 < p.toNat
      omega
    · exact hset hinv

/-! ## When the block is filled -/

/-- No address that the loops compare wraps, or the block ends at the end of all addresses and is
not longer than what is stamped without the loops. -/
def FillSuits (s n : U64) : Prop :=
  if n.toNat ≤ 160 then n.toNat = 32 → s.toNat + n.toNat < 2 ^ 64
  else roundsEnd s n < 2 ^ 64 ∨
    s.toNat + n.toNat = 2 ^ 64 ∧ n.toNat ≤ alignGap s + 160

instance (s n : U64) : Decidable (FillSuits s n) :=
  inferInstanceAs (Decidable (ite _ _ _))

/-- At the end of all addresses the unrolled loop stops at once. -/
theorem huge_memset_at_end (hlong : 160 < n.toNat) (hend : s.toNat + n.toNat = 2 ^ 64)
    (hrounds : 0 < rounds) :
    ReturnsWith (huge_memset rounds s c n m) fun r m' => r = s ∧ ∃ k ≤ alignGap s + 128,
      k < n.toNat ∧ (n.toNat ≤ k + 32 ∨ k = alignGap s + 128) ∧
        Filled s (between 0 (max 32 k) ∪ between (n.toNat - 32) n.toNat) (c.setWidth 8) m m' := by
  obtain ⟨hpos, hle, haligned⟩ := alignGap_bounds s
  obtain ⟨rounds, rfl⟩ : ∃ k, rounds = k + 1 := ⟨rounds - 1, by omega⟩
  have hzero : s + n = 0 := by
    apply BitVec.eq_of_toNat_eq
    rw [BitVec.toNat_add, hend]
    rfl
  have hstop : unrolledRound (s + n) (c.setWidth 8) (s + 32 - s % 32)
      (m.stored 32 s (vectorBytes (c.setWidth 8))) =
        .ok (.inr (s + 32 - s % 32)) (m.stored 32 s (vectorBytes (c.setWidth 8))) := by
    rw [unrolledRound, if_neg]
    · rfl
    · rw [hzero, BitVec.lt_def]
      exact Nat.not_lt_zero _
  rw [huge_memset]
  dsimp only
  rw [storeWord_bind, bind_of_ok (loop_succ_of_inr hstop rounds)]
  refine (stamped_first.stampRest hend.le (by omega) (by omega)).bind
    fun _ m' ⟨k, hk, hlt, hor, hfilled⟩ => ?_
  exact ReturnsWith.pure ⟨rfl, k, hk, hlt, hor, hfilled⟩

/-- There, longer blocks are not filled where the stamps stop. -/
theorem huge_memset_leaves (hlong : 160 < n.toNat) (hend : s.toNat + n.toNat = 2 ^ 64)
    (hfar : ¬ n.toNat ≤ alignGap s + 160) (hm : ∀ a, m a ≠ c.setWidth 8) (rounds : Nat) :
    ¬ ReturnsWith (huge_memset rounds s c n m) fun _ m' =>
      Filled s (between 0 n.toNat) (c.setWidth 8) m m' := by
  rintro ⟨r, m', hrun, hfilled⟩
  cases rounds with
  | zero =>
    rw [huge_memset] at hrun
    dsimp only at hrun
    rw [storeWord_bind] at hrun
    obtain ⟨p, m₁, hloop, hrun⟩ := bind_eq_ok.mp hrun
    exact throw_eq_ok.mp hloop
  | succ rounds =>
    obtain ⟨_, m₁, hr, -, k, hk, hlt, hor, hpart⟩ := huge_memset_at_end (c := c) (m := m)
      hlong hend rounds.succ_pos
    rw [hrun] at hr
    cases hr
    have hgap : (s + BitVec.ofNat 64 (alignGap s + 128) - s).toNat = alignGap s + 128 := by
      rw [add_sub_cancel_left, BitVec.toNat_ofNat]
      omega
    have hset : m' (s + BitVec.ofNat 64 (alignGap s + 128)) = c.setWidth 8 := by
      refine hfilled.filled _ ?_
      rw [mem_between, hgap]
      omega
    refine hm _ ((hpart.kept _ fun hin => ?_).symm.trans hset)
    simp only [Set.mem_union, mem_between, hgap] at hin
    rw [alignGap] at hin hk hor hfar
    omega

/-- `memset` on blocks of 32 to 160 bytes. -/
theorem memset_of_chunks (hlong : 32 ≤ n.toNat) (hshort : n.toNat ≤ 160) :
    memset rounds s c n = do
      loop () (stampChunk (s + n - 32) (c.setWidth 8)) rounds s
      storeWord 32 (s + n - 32) (vectorBytes (c.setWidth 8))
      return s := by
  have hsmall : ¬ n < 32 := fun h => absurd (BitVec.lt_def.mp h) (by change ¬ _ < 32; omega)
  have hhuge : ¬ 160 < n := fun h => absurd (BitVec.lt_def.mp h) (by change ¬ 160 < _; omega)
  rw [memset, if_neg hsmall, if_neg hhuge]

/-- Lengths beyond 160 go to `huge_memset`. -/
theorem memset_of_huge (hlong : 160 < n.toNat) :
    memset rounds s c n = huge_memset rounds s c n := by
  have hsmall : ¬ n < 32 := fun h => absurd (BitVec.lt_def.mp h) (by change ¬ _ < 32; omega)
  rw [memset, if_neg hsmall, if_pos (show 160 < n from BitVec.lt_def.mpr hlong)]

/-- Where the filling suits the place, `memset` returns and has filled it. -/
theorem memset_returns (hend : s.toNat + n.toNat ≤ 2 ^ 64) (hsuits : FillSuits s n)
    (hrounds : n.toNat < rounds) :
    ReturnsWith (memset rounds s c n m) fun r m' =>
      r = s ∧ Filled s (between 0 n.toNat) (c.setWidth 8) m m' := by
  rw [FillSuits] at hsuits
  split at hsuits
  · rename_i hshort
    rcases Nat.lt_or_ge n.toNat 32 with hsmall | hlong
    · rw [memset, if_pos (show n < 32 from BitVec.lt_def.mpr hsmall)]
      exact small_memset_returns hsmall
    · rw [memset_of_chunks hlong hshort]
      refine (stampChunk_returns hlong hend hsuits hrounds).bind
        fun _ m' ⟨k, hk, hcover, hfilled⟩ => ?_
      exact ReturnsWith.pure ⟨rfl, filled_cover hfilled hlong hk hcover⟩
  · rename_i hlong
    rw [memset_of_huge (not_le.mp hlong)]
    rcases hsuits with hbelow | ⟨htop, hshort⟩
    · exact huge_memset_returns (not_le.mp hlong) hbelow hrounds
    · refine (huge_memset_at_end (not_le.mp hlong) htop (by omega)).weaken
        fun r m' ⟨hr, k, hk, hlt, hor, hfilled⟩ => ⟨hr, hfilled.congr fun j => ?_⟩
      simp only [Set.mem_union, mem_between]
      omega

/-- Where the length does not suit, the byte behind the block is set, or one in it is not. -/
theorem memset_misses (hend : s.toNat + n.toNat ≤ 2 ^ 64) (hsuits : ¬ FillSuits s n)
    (hm : ∀ a, m a ≠ c.setWidth 8) (rounds : Nat) :
    ¬ ReturnsWith (memset rounds s c n m) fun r m' =>
      r = s ∧ Filled s (between 0 n.toNat) (c.setWidth 8) m m' := by
  have hbehind {m' : Bytes} (hset : m' (s + n) = c.setWidth 8) :
      ¬ Filled s (between 0 n.toNat) (c.setWidth 8) m m' := by
    intro hfilled
    refine hm (s + n) ?_
    rw [← hset]
    refine (hfilled.kept _ ?_).symm
    rw [add_sub_cancel_left]
    exact fun h => lt_irrefl _ h.2
  rintro ⟨r, m', hrun, -, hfilled⟩
  rw [FillSuits] at hsuits
  split at hsuits
  · rename_i hshort
    obtain ⟨hlong, htop⟩ := Classical.not_imp.mp hsuits
    rw [memset_of_chunks hlong.ge hshort] at hrun
    obtain ⟨_, m₁, hloop, hrun⟩ := bind_eq_ok.mp hrun
    obtain ⟨_, m₂, hstore, hrun⟩ := bind_eq_ok.mp hrun
    obtain ⟨-, rfl⟩ := pure_eq_ok.mp hrun
    have hset := chunks_overrun hlong (by omega) m _ m₁ trivial hloop
    exact hbehind (storeWord_keeps m₁ _ m₂ hset hstore) hfilled
  · rename_i hlong
    obtain ⟨hrounds, hnear⟩ := not_or.mp hsuits
    rw [memset_of_huge (not_le.mp hlong)] at hrun
    by_cases htop : s.toNat + n.toNat = 2 ^ 64
    · exact huge_memset_leaves (not_le.mp hlong) htop (fun h => hnear ⟨htop, h⟩) hm rounds
        ⟨r, m', hrun, hfilled⟩
    · rw [huge_memset] at hrun
      dsimp only at hrun
      rw [storeWord_bind] at hrun
      obtain ⟨p, m₁, hloop, hrun⟩ := bind_eq_ok.mp hrun
      obtain ⟨_, m₂, hrest, hrun⟩ := bind_eq_ok.mp hrun
      obtain ⟨-, rfl⟩ := pure_eq_ok.mp hrun
      have hset := unrolled_overruns (by omega) (by omega) (by omega) _ p m₁ trivial hloop
      exact hbehind (stampRest_keeps m₁ _ m₂ hset hrest) hfilled

/-- `memset` fills the block, and nothing else, if and only if the length suits. -/
theorem memset_fills_iff (hend : s.toNat + n.toNat ≤ 2 ^ 64) (hrounds : n.toNat < rounds) :
    (∀ m, ReturnsWith (memset rounds s c n m) fun r m' =>
      r = s ∧ Filled s (between 0 n.toNat) (c.setWidth 8) m m') ↔ FillSuits s n := by
  constructor
  · intro hfills
    by_contra hsuits
    refine memset_misses (m := fun _ => c.setWidth 8 + 1) hend hsuits (fun _ h => ?_) rounds
      (hfills _)
    exact absurd (add_eq_left.mp h) (by decide)
  · exact fun hsuits m => memset_returns hend hsuits hrounds

/-- Two hundred bytes from an address that is not aligned. -/
theorem memset_fills_twoHundred : ReturnsWith (memset 201 7 0x1ff 200 fun a => a.setWidth 8)
    fun r m' => r = 7 ∧ Filled 7 (between 0 200) 0xff (fun a => a.setWidth 8) m' :=
  (memset_fills_iff (s := 7) (c := 0x1ff) (n := 200) (by decide) (by decide)).mpr (by decide) _

/-- Two hundred bytes that end 56 bytes before the end of all addresses. -/
theorem memset_not_filled : ∃ m : Bytes, ∀ rounds,
    ¬ ReturnsWith (memset rounds 0xffffffffffffff00 1 200 m) fun r m' =>
      r = 0xffffffffffffff00 ∧ Filled 0xffffffffffffff00 (between 0 200) 1 m m' :=
  ⟨fun _ => 0, memset_misses (s := 0xffffffffffffff00) (c := 1) (n := 200) (by decide) (by decide)
    fun _ h => absurd h (by decide)⟩

end Memset

end Homegrown.Freestanding
