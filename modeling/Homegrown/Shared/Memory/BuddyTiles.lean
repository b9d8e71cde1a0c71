import Homegrown.Shared.Memory.Buddy

/-!
# Blocks that tile the region

The headers that `nextBuddy` reaches are a list of blocks. A change of the memory under some of
the blocks puts other blocks in their place (`BuddyTiles.replace`): a split, a merge, a change of
`isFree` and a store of its user's into a block are instances.
-/

namespace Homegrown

/-- The size is a power of two with room for the header. -/
def BuddyBlock.Valid (b : BuddyBlock) : Prop := ∃ k, 4 ≤ k ∧ IsTwoPow b.size k

/-- The blocks lie one after the other, from the head to the tail. -/
structure BuddyTiles (m : U64 → U8) (head tail : U64) (blocks : List BuddyBlock) : Prop where
  walk : Walk (readBuddy m) BuddyBlock.size head blocks tail
  valid : ∀ b ∈ blocks, b.Valid
  head_pos : 0 < head.toNat
  fits : head.toNat + extent BuddyBlock.size blocks < 2 ^ 64

/-- The memory changed within the region only, and the blocks tile it again. -/
structure BuddyChange (head tail : U64) (m m' : U64 → U8) (blocks : List BuddyBlock) : Prop where
  tiles : BuddyTiles m' head tail blocks
  outside : ∀ a : U64, a.toNat < head.toNat ∨ tail.toNat ≤ a.toNat → m' a = m a

/-! ## Sizes -/

section Sizes

variable {b : BuddyBlock}

theorem BuddyBlock.Valid.le_size (h : b.Valid) : 16 ≤ b.size.toNat := by
  obtain ⟨k, hk, hpow⟩ := h
  rw [hpow]
  exact Nat.pow_le_pow_right (Nat.succ_pos 1) hk

/-- Twice a size that does not wrap. -/
theorem BuddyBlock.Valid.double (h : b.Valid) (isFree : Bool) (hlt : 2 * b.size.toNat < 2 ^ 64) :
    (b.size <<< 1).toNat = 2 * b.size.toNat ∧ BuddyBlock.Valid ⟨b.size <<< 1, isFree⟩ := by
  have hdouble : (b.size <<< 1).toNat = 2 * b.size.toNat := by
    rw [BitVec.toNat_shiftLeft, Nat.shiftLeft_eq, Nat.mod_eq_of_lt (by omega)]
    omega
  obtain ⟨k, hk, hpow⟩ := h
  refine ⟨hdouble, k + 1, by omega, ?_⟩
  change (b.size <<< 1).toNat = 2 ^ (k + 1)
  rw [hdouble, hpow, Nat.pow_succ]
  omega

/-- Half a size that is more than the least. -/
theorem BuddyBlock.Valid.half (h : b.Valid) (isFree : Bool) (hlt : 16 < b.size.toNat) :
    2 * (b.size >>> 1).toNat = b.size.toNat ∧ BuddyBlock.Valid ⟨b.size >>> 1, isFree⟩ := by
  obtain ⟨k, hk, hpow⟩ := h
  rw [hpow, show 16 = 2 ^ 4 from rfl, Nat.pow_lt_pow_iff_right (by decide)] at hlt
  obtain ⟨k, rfl⟩ : ∃ j, k = j + 1 := ⟨k - 1, by omega⟩
  have hhalf : (b.size >>> 1).toNat = 2 ^ k := by
    rw [BitVec.toNat_ushiftRight, hpow, Nat.shiftRight_eq_div_pow, Nat.pow_succ, pow_one,
      Nat.mul_div_cancel _ (by decide)]
  refine ⟨?_, k, by omega, hhalf⟩
  rw [hhalf, hpow, Nat.pow_succ, Nat.mul_comm]

end Sizes

/-! ## Headers -/

section Headers

variable {m m' : U64 → U8} {p q a size : U64} {isFree : Bool}

theorem toNat_add_eight (h : p.toNat + 16 ≤ 2 ^ 64) : (p + 8).toNat = p.toNat + 8 := by
  rw [BitVec.toNat_add, Nat.mod_eq_of_lt]
  · rfl
  · exact Nat.lt_of_lt_of_le (Nat.add_lt_add_left (by decide) _) h

/-- A header depends on its own bytes only. -/
theorem readBuddy_congr (h : p.toNat + 16 ≤ 2 ^ 64)
    (hsame : ∀ a : U64, a.toNat ∈ Span.mk p.toNat 16 → m' a = m a) :
    readBuddy m' p = readBuddy m p := by
  have hflag := toNat_add_eight h
  rw [readBuddy, readBuddy, load64_congr (by omega), hsame (p + 8)]
  · rw [hflag, Span.mem_mk]
    omega
  · intro a ha
    rw [Span.mem_mk] at ha
    apply hsame
    rw [Span.mem_mk]
    omega

/-- An assignment to a size changes the header only. -/
theorem putSize_of_notMem (h : p.toNat + 16 ≤ 2 ^ 64) (ha : a.toNat ∉ Span.mk p.toNat 16) :
    putSize m p size a = m a := by
  apply store64_of_notMem (by omega)
  rw [Span.mem_mk] at ha ⊢
  omega

/-- An assignment to `isFree` changes the header only. -/
theorem putFree_of_notMem (h : p.toNat + 16 ≤ 2 ^ 64) (ha : a.toNat ∉ Span.mk p.toNat 16) :
    putFree m p isFree a = m a := by
  have hflag := toNat_add_eight h
  apply storeBytes_of_notMem
  · rw [hflag, List.length_singleton]
    omega
  · rw [hflag, List.length_singleton]
    rw [Span.mem_mk] at ha ⊢
    omega

theorem readBuddy_putSize_self (h : p.toNat + 16 ≤ 2 ^ 64) :
    readBuddy (putSize m p size) p = ⟨size, (readBuddy m p).isFree⟩ := by
  have hflag := toNat_add_eight h
  rw [readBuddy, putSize, load64_store64_self (by omega), store64_of_notMem (by omega), readBuddy]
  rw [hflag, Span.mem_mk]
  omega

theorem readBuddy_putFree_self (h : p.toNat + 16 ≤ 2 ^ 64) :
    readBuddy (putFree m p isFree) p = ⟨(readBuddy m p).size, isFree⟩ := by
  have hflag := toNat_add_eight h
  have hsize : load64 (putFree m p isFree) p = load64 m p := by
    apply load64_storeBytes_of_disjoint
    · rw [hflag, List.length_singleton]
      omega
    · omega
    · apply Span.disjoint_of_stop_le
      rw [hflag]
      exact le_rfl
  have hbyte : putFree m p isFree (p + 8) = if isFree then 1 else 0 := by
    rw [putFree, storeBytes, BitVec.sub_self]
    rfl
  rw [readBuddy, hsize, hbyte, readBuddy]
  cases isFree <;> rfl

theorem readBuddy_putSize_of_disjoint (hp : p.toNat + 16 ≤ 2 ^ 64) (hq : q.toNat + 16 ≤ 2 ^ 64)
    (hpq : p.toNat + 16 ≤ q.toNat ∨ q.toNat + 16 ≤ p.toNat) :
    readBuddy (putSize m p size) q = readBuddy m q := by
  apply readBuddy_congr hq
  intro a ha
  apply putSize_of_notMem hp
  rw [Span.mem_mk] at ha ⊢
  omega

theorem readBuddy_putFree_of_disjoint (hp : p.toNat + 16 ≤ 2 ^ 64) (hq : q.toNat + 16 ≤ 2 ^ 64)
    (hpq : p.toNat + 16 ≤ q.toNat ∨ q.toNat + 16 ≤ p.toNat) :
    readBuddy (putFree m p isFree) q = readBuddy m q := by
  apply readBuddy_congr hq
  intro a ha
  apply putFree_of_notMem hp
  rw [Span.mem_mk] at ha ⊢
  omega

end Headers

/-! ## Changes -/

namespace BuddyTiles

variable {m m' : U64 → U8} {head tail : U64} {blocks pre mid mid' post : List BuddyBlock}
  {b c : BuddyBlock}

theorem tail_eq (h : BuddyTiles m head tail blocks) :
    tail = placeAfter BuddyBlock.size head blocks := h.walk.eq_placeAfter

theorem toNat_tail (h : BuddyTiles m head tail blocks) :
    tail.toNat = head.toNat + extent BuddyBlock.size blocks := by
  rw [h.tail_eq, toNat_placeAfter h.fits]

/-- Where the block behind others lies. -/
theorem toNat_place (h : BuddyTiles m head tail (pre ++ post)) :
    (placeAfter BuddyBlock.size head pre).toNat = head.toNat + extent BuddyBlock.size pre := by
  have hfits := h.fits
  rw [extent_append] at hfits
  exact toNat_placeAfter (by omega)

theorem read_eq (h : BuddyTiles m head tail (pre ++ b :: post)) :
    readBuddy m (placeAfter BuddyBlock.size head pre) = b := h.walk.read_eq

/-- Other blocks take the place of some, where only the memory under those was changed. -/
theorem replace (mid mid' : List BuddyBlock) (h : BuddyTiles m head tail (pre ++ (mid ++ post)))
    (hwalk : Walk (readBuddy m') BuddyBlock.size (placeAfter BuddyBlock.size head pre) mid'
      (placeAfter BuddyBlock.size head (pre ++ mid)))
    (hvalid : ∀ b ∈ mid', b.Valid)
    (hbytes : extent BuddyBlock.size mid' = extent BuddyBlock.size mid)
    (hsame : ∀ a : U64, a.toNat ∉ Span.mk (placeAfter BuddyBlock.size head pre).toNat
      (extent BuddyBlock.size mid) → m' a = m a) :
    BuddyChange head tail m m' (pre ++ (mid' ++ post)) := by
  have hfits := h.fits
  have htail := h.toNat_tail
  have hplace := h.toNat_place
  rw [hplace] at hsame
  simp only [extent_append] at hfits htail
  have hvalid₀ := h.valid
  -- Headers in front of the change and behind it are as they were.
  have hread (xs : List BuddyBlock) (x : BuddyBlock) (hx : x.Valid)
      (hout : extent BuddyBlock.size xs + x.size.toNat ≤ extent BuddyBlock.size pre ∨
        extent BuddyBlock.size pre + extent BuddyBlock.size mid ≤ extent BuddyBlock.size xs)
      (hend : extent BuddyBlock.size xs + x.size.toNat ≤ extent BuddyBlock.size pre +
        extent BuddyBlock.size mid + extent BuddyBlock.size post) :
      readBuddy m' (placeAfter BuddyBlock.size head xs) =
        readBuddy m (placeAfter BuddyBlock.size head xs) := by
    have hle := hx.le_size
    have hxs : (placeAfter BuddyBlock.size head xs).toNat =
        head.toNat + extent BuddyBlock.size xs := toNat_placeAfter (by omega)
    apply readBuddy_congr (by omega)
    intro a ha
    apply hsame
    rw [Span.mem_mk] at ha ⊢
    omega
  have hcut := Walk.append_iff.mp h.walk
  have hcut' := Walk.append_iff.mp hcut.2
  have hpre : Walk (readBuddy m') BuddyBlock.size head pre
      (placeAfter BuddyBlock.size head pre) := by
    apply hcut.1.congr
    intro xs x ys hxs
    apply hread xs x (hvalid₀ x (by simp [hxs]))
    · rw [hxs, extent_append, extent_cons]
      omega
    · rw [hxs, extent_append, extent_cons]
      omega
  have hpost : Walk (readBuddy m') BuddyBlock.size (placeAfter BuddyBlock.size head (pre ++ mid))
      post tail := by
    rw [placeAfter_append]
    apply hcut'.2.congr
    intro xs x ys hxs
    rw [← placeAfter_append, ← placeAfter_append, ← List.append_assoc]
    have hx := hvalid₀ x (by simp [hxs])
    rw [List.append_assoc]
    apply hread (pre ++ (mid ++ xs)) x hx
    · rw [extent_append, extent_append]
      omega
    · rw [hxs, extent_append, extent_append, extent_append, extent_cons]
      omega
  have hend : placeAfter BuddyBlock.size (placeAfter BuddyBlock.size head pre) mid' =
      placeAfter BuddyBlock.size head (pre ++ mid) := hwalk.eq_placeAfter.symm
  refine ⟨⟨?_, fun x hx => ?_, h.head_pos, ?_⟩, fun a ha => ?_⟩
  · rw [Walk.append_iff, Walk.append_iff, hend]
    exact ⟨hpre, hwalk, hpost⟩
  · simp only [List.mem_append] at hx
    rcases hx with hx | hx | hx
    · exact hvalid₀ x (by simp [hx])
    · exact hvalid x hx
    · exact hvalid₀ x (by simp [hx])
  · simp only [extent_append]
    omega
  · apply hsame
    rw [Span.mem_mk]
    omega

/-- A store into the place of one block that leaves its size. -/
theorem change (h : BuddyTiles m head tail (pre ++ b :: post)) (isFree : Bool)
    (hread : readBuddy m' (placeAfter BuddyBlock.size head pre) = ⟨b.size, isFree⟩)
    (hsame : ∀ a : U64, a.toNat ∉ Span.mk (placeAfter BuddyBlock.size head pre).toNat
      b.size.toNat → m' a = m a) :
    BuddyChange head tail m m' (pre ++ ⟨b.size, isFree⟩ :: post) := by
  refine replace [b] [⟨b.size, isFree⟩] h ⟨hread, ?_⟩ ?_ ?_ ?_
  · rw [placeAfter_concat]
    rfl
  · intro x hx
    rw [List.mem_singleton.mp hx]
    exact h.valid b (by simp)
  · rw [extent_cons, extent_cons, extent_nil]
  · rwa [extent_cons, extent_nil, Nat.add_zero]

/-- The header of a block lies within the region. -/
theorem header_le (h : BuddyTiles m head tail (pre ++ b :: post)) :
    (placeAfter BuddyBlock.size head pre).toNat + b.size.toNat ≤ tail.toNat ∧
      16 ≤ b.size.toNat := by
  have hplace := h.toNat_place
  have htail := h.toNat_tail
  rw [extent_append, extent_cons] at htail
  exact ⟨by omega, (h.valid b (by simp)).le_size⟩

/-- A block is marked. -/
theorem putFree (h : BuddyTiles m head tail (pre ++ b :: post)) (isFree : Bool) :
    BuddyChange head tail m (putFree m (placeAfter BuddyBlock.size head pre) isFree)
      (pre ++ ⟨b.size, isFree⟩ :: post) := by
  obtain ⟨hle, hsize⟩ := h.header_le
  have hlt := tail.isLt
  apply h.change isFree
  · rw [readBuddy_putFree_self (by omega), h.read_eq]
  · intro a ha
    apply putFree_of_notMem (by omega)
    rw [Span.mem_mk] at ha ⊢
    omega

/-- A store behind the header of a block. -/
theorem store (h : BuddyTiles m head tail (pre ++ b :: post)) (a : U64) (data : List U8)
    (hle : (placeAfter BuddyBlock.size head pre).toNat + 16 ≤ a.toNat)
    (hfit : a.toNat + data.length ≤
      (placeAfter BuddyBlock.size head pre).toNat + b.size.toNat) :
    BuddyChange head tail m (storeBytes m a data) (pre ++ b :: post) := by
  obtain ⟨hend, hsize⟩ := h.header_le
  have hlt := tail.isLt
  have hsame (a' : U64) (ha : a'.toNat ∉ Span.mk a.toNat data.length) :
      storeBytes m a data a' = m a' := storeBytes_of_notMem (by omega) ha
  refine h.change b.isFree ?_ fun a' ha => hsame a' ?_
  · refine (readBuddy_congr (m := m) (by omega) fun a' ha => hsame a' ?_).trans h.read_eq
    rw [Span.mem_mk] at ha ⊢
    omega
  · rw [Span.mem_mk] at ha ⊢
    omega

/-- Two blocks of one size become one. -/
theorem merge (h : BuddyTiles m head tail (pre ++ b :: c :: post)) (hsize : b.size = c.size) :
    BuddyChange head tail m (putSize m (placeAfter BuddyBlock.size head pre) (b.size <<< 1))
      (pre ++ ⟨b.size <<< 1, b.isFree⟩ :: post) := by
  obtain ⟨hle, hge⟩ := h.header_le
  have hlt := tail.isLt
  have hfits := h.fits
  simp only [extent_append, extent_cons, ← hsize] at hfits
  obtain ⟨hdouble, hvalid⟩ := (h.valid b (by simp)).double b.isFree (by omega)
  refine replace [b, c] [⟨b.size <<< 1, b.isFree⟩] h ⟨?_, ?_⟩ ?_ ?_ ?_
  · rw [readBuddy_putSize_self (by omega), h.read_eq]
  · rw [placeAfter_append, placeAfter_cons, placeAfter_cons, placeAfter_nil, ← hsize,
      BitVec.add_assoc]
    congr 1
    apply BitVec.eq_of_toNat_eq
    rw [hdouble, BitVec.toNat_add, Nat.mod_eq_of_lt (by omega)]
    omega
  · intro x hx
    rw [List.mem_singleton.mp hx]
    exact hvalid
  · simp only [extent_cons, extent_nil, ← hsize, hdouble]
    omega
  · intro a ha
    apply putSize_of_notMem (by omega)
    simp only [extent_cons, extent_nil, Span.mem_mk] at ha ⊢
    omega

/-- A block becomes two of half its size, and the second one is free. -/
theorem split (h : BuddyTiles m head tail (pre ++ b :: post)) (hlt : 16 < b.size.toNat)
    {block buddy : U64} (hblock : block = placeAfter BuddyBlock.size head pre)
    (hbuddy : buddy = nextBuddy (putSize m block (b.size >>> 1)) block) :
    buddy = placeAfter BuddyBlock.size head (pre ++ [⟨b.size >>> 1, b.isFree⟩]) ∧
      BuddyChange head tail m
        (Homegrown.putFree (putSize (putSize m block (b.size >>> 1)) buddy (b.size >>> 1)) buddy
          true)
        (pre ++ ⟨b.size >>> 1, b.isFree⟩ :: ⟨b.size >>> 1, true⟩ :: post) := by
  obtain ⟨hle, hge⟩ := h.header_le
  have htail := tail.isLt
  obtain ⟨hhalf, hvalid⟩ := (h.valid b (by simp)).half b.isFree hlt
  have hread₀ := h.read_eq
  have hhalfLe : 16 ≤ (b.size >>> 1).toNat := hvalid.le_size
  have hvalid' : BuddyBlock.Valid ⟨b.size >>> 1, true⟩ := hvalid
  rw [← hblock] at hle hread₀
  generalize hhalf' : b.size >>> 1 = half at *
  have hread : readBuddy (putSize m block half) block = ⟨half, b.isFree⟩ := by
    rw [readBuddy_putSize_self (by omega), hread₀]
  have hnext : buddy = block + half := by rw [hbuddy, nextBuddy, hread]
  have hplace : buddy.toNat = block.toNat + half.toNat := by
    rw [hnext, BitVec.toNat_add, Nat.mod_eq_of_lt (by omega)]
  have hend : buddy + half = placeAfter BuddyBlock.size head (pre ++ [b]) := by
    rw [placeAfter_concat, ← hblock, hnext, BitVec.add_assoc]
    congr 1
    apply BitVec.eq_of_toNat_eq
    rw [BitVec.toNat_add, Nat.mod_eq_of_lt (by omega)]
    omega
  refine ⟨by rw [placeAfter_concat, hnext, hblock],
    replace [b] [⟨half, b.isFree⟩, ⟨half, true⟩] h ?_ ?_ ?_ ?_⟩
  · rw [← hblock, ← hend]
    refine ⟨?_, ?_, ?_⟩
    · rw [readBuddy_putFree_of_disjoint (by omega) (by omega) (by omega),
        readBuddy_putSize_of_disjoint (by omega) (by omega) (by omega), hread]
    · rw [← hnext, readBuddy_putFree_self (by omega), readBuddy_putSize_self (by omega)]
    · rw [hnext]
      rfl
  · intro x hx
    simp only [List.mem_cons, List.not_mem_nil, or_false] at hx
    rcases hx with rfl | rfl
    · exact hvalid
    · exact hvalid'
  · simp only [extent_cons, extent_nil]
    omega
  · intro a ha
    rw [← hblock, extent_cons, extent_nil, Nat.add_zero, Span.mem_mk] at ha
    rw [putFree_of_notMem (by omega) (by rw [Span.mem_mk]; omega),
      putSize_of_notMem (by omega) (by rw [Span.mem_mk]; omega),
      putSize_of_notMem (by omega) (by rw [Span.mem_mk]; omega)]

end BuddyTiles

namespace BuddyChange

variable {m m' m'' : U64 → U8} {head tail : U64} {blocks blocks' : List BuddyBlock}

theorem refl (h : BuddyTiles m head tail blocks) : BuddyChange head tail m m blocks :=
  ⟨h, fun _ _ => rfl⟩

theorem trans (h : BuddyChange head tail m m' blocks)
    (h' : BuddyChange head tail m' m'' blocks') : BuddyChange head tail m m'' blocks' :=
  ⟨h'.tiles, fun a ha => (h'.outside a ha).trans (h.outside a ha)⟩

end BuddyChange

end Homegrown
