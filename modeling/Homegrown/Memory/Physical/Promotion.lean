import Homegrown.Memory.Physical.Partition
import Homegrown.Memory.Physical.Updates

/-!
# Promotion at boot

The loop of `initPMM` removes a region that is promoted whole by moving the last one into its
place, and goes on behind that place. A region that is moved there is never looked at again, and
so is the table of a full manager that is moved while the loop is at the end of its list. When no
update does this with a region that is still to be promoted, the loop leaves none. A round that
finds room in both tables makes one such update only, and there the converse holds as well.
-/

namespace Homegrown.Memory

/-! ## Places that the loop has passed -/

/-- The region that `decreasePages` moves to an index, if it removes the one that is there. -/
def PhysicalMemoryManager.moved? (p : PhysicalMemoryManager) (index : Nat) (decreaseBy : U64) :
    Option PagedMemory :=
  match p.memory[index]? with
  | none => none
  | some region =>
    if region.numberOfPages = decreaseBy ∧ index + 1 < p.memory.length then p.memory.getLast?
    else none

/-- The regions below an index are spared, behind the regions before them. -/
def Examined (spared : List PagedMemory → PagedMemory → Prop) (i : Nat)
    (regions : List PagedMemory) : Prop :=
  ∀ j < i, ∀ r, regions[j]? = some r → spared (regions.take j) r

/-- A region that contains no larger page, wherever it is listed. -/
def Unpromotable (larger s : PageSize) (_ : List PagedMemory) (r : PagedMemory) : Prop :=
  ¬ Promotable larger s r

/-- Up to an index, no region contains a larger page. -/
def PhysicalMemoryManager.SettledTo (larger s : PageSize) (i : Nat) (p : PhysicalMemoryManager) :
    Prop :=
  Examined (Unpromotable larger s) i p.memory

/-- No region contains a larger page. -/
def PhysicalMemoryManager.Settled (larger s : PageSize) (p : PhysicalMemoryManager) : Prop :=
  ∀ r ∈ p.memory, ¬ Promotable larger s r

/-- While the loop is at an index, the update puts no region at a place up to there but one that
is spared: neither the last region in the place of a removed one, nor the frames of an old table
at the end of a list that has become so short. -/
def SkipsNone (spared : List PagedMemory → PagedMemory → Prop) (larger s : PageSize) (i : Nat) :
    Update → PhysicalMemory → Prop
  | .decrease t j n, m => t = s → j ≤ i → ∀ last ∈ (m.manager s).moved? j n,
      spared ((m.manager s).memory.take j) last
  | .moveTable t, m => t = s → (m.manager s).memory.length ≤ i →
      ¬ Promotable larger s (m.manager s).oldTable

/-- After the loop, the update lists no table whose frames contain a larger page. -/
def ListsNone (larger s : PageSize) : Update → PhysicalMemory → Prop
  | .decrease _ _ _, _ => True
  | .moveTable t, m => t = s → ¬ Promotable larger s (m.manager s).oldTable

instance (larger s : PageSize) (before : List PagedMemory) (r : PagedMemory) :
    Decidable (Unpromotable larger s before r) :=
  inferInstanceAs (Decidable (¬ _))

instance (spared : List PagedMemory → PagedMemory → Prop) [∀ before r, Decidable (spared before r)]
    (larger s : PageSize) (i : Nat) :
    ∀ u m, Decidable (SkipsNone spared larger s i u m)
  | .decrease _ _ _, _ => inferInstanceAs (Decidable (_ → _ → _))
  | .moveTable _, _ => inferInstanceAs (Decidable (_ → _ → _))

instance (larger s : PageSize) : ∀ u m, Decidable (ListsNone larger s u m)
  | .decrease _ _ _, _ => isTrue trivial
  | .moveTable _, _ => inferInstanceAs (Decidable (_ → _))

section Passed

variable {s larger : PageSize} {p : PhysicalMemoryManager} {region r : PagedMemory} {i j k : Nat}
  {n : U64} {spared : List PagedMemory → PagedMemory → Prop}

/-- Below the last index, the last entry is moved. -/
theorem swapRemove_concat_of_lt {α : Type} {l : List α} {a : α} (hi : i < l.length) :
    swapRemove (l ++ [a]) i = l.set i a := by
  have hswap : swapRemove (l ++ [a]) i = ((l ++ [a]).set i a).dropLast := by
    simp [swapRemove]
  rw [hswap, List.set_append_left _ _ hi, List.dropLast_concat]

/-- Where each region was that is listed after `decreasePages`. -/
theorem getElem?_decrease (hi : p.memory[i]? = some region)
    (hr : (p.decrease s i region n).memory[j]? = some r) :
    j ≠ i ∧ p.memory[j]? = some r ∨
      j = i ∧ (region.numberOfPages ≠ n ∧ r = region.drop s n ∨ r ∈ p.moved? i n) := by
  have hbound := (List.getElem?_eq_some_iff.mp hi).1
  unfold PhysicalMemoryManager.decrease at hr
  split at hr
  · rename_i hwhole
    rcases List.eq_nil_or_concat p.memory with hnil | ⟨init, last, hconcat⟩
    · rw [hnil] at hi
      cases hi
    rw [List.concat_eq_append] at hconcat
    dsimp only at hr
    rw [hconcat] at hr
    have hlength : p.memory.length = init.length + 1 := by
      rw [hconcat, List.length_append, List.length_singleton]
    rcases Nat.lt_succ_iff_lt_or_eq.mp (hlength ▸ hbound) with hlt | heq
    · rw [swapRemove_concat_of_lt hlt] at hr
      by_cases hji : j = i
      · -- The last region has taken the place of the removed one.
        subst hji
        rw [List.getElem?_set_self hlt] at hr
        refine .inr ⟨rfl, .inr ?_⟩
        rw [PhysicalMemoryManager.moved?, hi]
        dsimp only
        rw [if_pos ⟨hwhole, by omega⟩, hconcat, List.getLast?_concat]
        exact hr
      · rw [List.getElem?_set_ne (Ne.symm hji)] at hr
        refine .inl ⟨hji, ?_⟩
        rw [hconcat, List.getElem?_append_left (List.getElem?_eq_some_iff.mp hr).1, hr]
    · subst heq
      rw [swapRemove_concat] at hr
      have hj := (List.getElem?_eq_some_iff.mp hr).1
      refine .inl ⟨hj.ne, ?_⟩
      rw [hconcat, List.getElem?_append_left hj, hr]
  · rename_i hwhole
    by_cases hji : j = i
    · subst hji
      rw [List.getElem?_set_self hbound] at hr
      exact .inr ⟨rfl, .inl ⟨hwhole, (Option.some.inj hr).symm⟩⟩
    · rw [List.getElem?_set_ne (Ne.symm hji)] at hr
      exact .inl ⟨hji, hr⟩

/-- The region that is moved comes to the index. -/
theorem getElem?_decrease_moved {regions : List PagedMemory} (h : r ∈ p.moved? i n)
    (hi : p.memory[i]? = some region) :
    ((p.decrease s i region n).memory ++ regions)[i]? = some r := by
  rw [PhysicalMemoryManager.moved?, hi] at h
  dsimp only at h
  split at h
  · rename_i hwhole
    obtain ⟨hwhole, hbound⟩ := hwhole
    obtain ⟨init, hinit⟩ := List.getLast?_eq_some_iff.mp h
    rw [hinit, List.length_append, List.length_singleton] at hbound
    have hlt : i < init.length := by omega
    rw [PhysicalMemoryManager.decrease, if_pos hwhole]
    dsimp only
    rw [hinit, swapRemove_concat_of_lt hlt, List.getElem?_append_left (by rwa [List.length_set]),
      List.getElem?_set_self hlt]
  · cases h

/-- Below the index nothing changes. -/
theorem take_decrease_append {regions : List PagedMemory} (hi : p.memory[i]? = some region) :
    ((p.decrease s i region n).memory ++ regions).take i = p.memory.take i := by
  have hbound := (List.getElem?_eq_some_iff.mp hi).1
  unfold PhysicalMemoryManager.decrease
  split
  · rcases List.eq_nil_or_concat p.memory with hnil | ⟨init, last, hconcat⟩
    · rw [hnil] at hi
      cases hi
    rw [List.concat_eq_append] at hconcat
    rw [hconcat, List.length_append, List.length_singleton] at hbound
    dsimp only
    rw [hconcat]
    rcases Nat.lt_succ_iff_lt_or_eq.mp hbound with hlt | rfl
    · rw [swapRemove_concat_of_lt hlt,
        List.take_append_of_le_length (by rw [List.length_set]; omega),
        List.take_set_of_le le_rfl, List.take_append_of_le_length hlt.le]
    · rw [swapRemove_concat, List.take_left, List.take_left]
  · dsimp only
    rw [List.take_append_of_le_length (by rw [List.length_set]; omega), List.take_set_of_le le_rfl]

/-- A region is moved where the whole region at the index is taken. -/
theorem moved_whole (h : r ∈ p.moved? i n) (hi : p.memory[i]? = some region) :
    region.numberOfPages = n := by
  rw [PhysicalMemoryManager.moved?, hi] at h
  dsimp only at h
  split at h
  · rename_i hwhole
    exact hwhole.1
  · cases h

/-- What is moved was listed. -/
theorem mem_of_moved (h : r ∈ p.moved? i n) : r ∈ p.memory := by
  unfold PhysicalMemoryManager.moved? at h
  split at h
  · cases h
  · split at h
    · exact List.mem_of_getLast? h
    · cases h

/-- Behind the regions that were listed there are the new ones. -/
theorem getElem?_append_cases {regions new : List PagedMemory}
    (hr : (regions ++ new)[j]? = some r) :
    regions[j]? = some r ∨ regions.length ≤ j ∧ r ∈ new := by
  rcases Nat.lt_or_ge j regions.length with hlt | hge
  · rw [List.getElem?_append_left hlt] at hr
    exact .inl hr
  · rw [List.getElem?_append_right hge] at hr
    exact .inr ⟨hge, List.mem_of_getElem? hr⟩

/-- One index more. -/
theorem examined_succ {regions : List PagedMemory} : Examined spared (i + 1) regions ↔
    Examined spared i regions ∧ ∀ r, regions[i]? = some r → spared (regions.take i) r := by
  constructor
  · exact fun h => ⟨fun j hj => h j (by omega), h i (by omega)⟩
  · rintro ⟨hbelow, hat⟩ j hj
    rcases Nat.lt_succ_iff_lt_or_eq.mp hj with hlt | rfl
    · exact hbelow j hlt
    · exact hat

/-- Taking pages leaves no larger page below an index, if there was none in the other regions
and none comes to the place where they are taken. -/
theorem settledTo_decrease (hi : p.memory[i]? = some region)
    (hothers : ∀ j < k, j ≠ i → ∀ r, p.memory[j]? = some r → ¬ Promotable larger s r)
    (hkept : i < k → region.numberOfPages ≠ n → ¬ Promotable larger s (region.drop s n))
    (hmoved : i < k → ∀ last ∈ p.moved? i n, ¬ Promotable larger s last) :
    (p.decrease s i region n).SettledTo larger s k := by
  intro j hj r hr
  rcases getElem?_decrease hi hr with ⟨hji, hr⟩ | ⟨rfl, ⟨hne, rfl⟩ | hlast⟩
  · exact hothers j hj hji r hr
  · exact hkept hj hne
  · exact hmoved hj r hlast

/-- Up to the index of the loop there is no larger page, as long as no update puts one there. -/
theorem kept_settledTo (hl : s.larger? = some larger) :
    Kept s (SkipsNone (Unpromotable larger s) larger s i)
      fun m => (m.manager s).SettledTo larger s (i + 1) := by
  refine Kept.ofManager ?_ ?_ ?_
  · intro m j n region hm hj hle hskips
    refine settledTo_decrease hj (fun k hk _ => hm k hk) (fun hji _ => ?_) fun hji last hlast => ?_
    · exact fun hp => hm j hji region hj (hp.of_drop hl hle)
    · exact hskips rfl (Nat.le_of_lt_succ hji) last hlast
  · intro p page hm hpage j hj r hr
    rcases getElem?_append_cases hr with hr | ⟨-, hr⟩
    · exact hm j hj r hr
    · rw [List.mem_singleton.mp hr]
      exact not_promotable_of_lt hpage
  · intro m newBuf hm hskips j hj r hr
    rcases getElem?_append_cases hr with hr | ⟨hlen, hr⟩
    · exact hm j hj r hr
    · rw [List.mem_singleton.mp hr]
      exact hskips rfl (hlen.trans (Nat.le_of_lt_succ hj))

/-- After the loop there is no larger page, as long as no update lists one. -/
theorem kept_settled (hl : s.larger? = some larger) :
    Kept s (ListsNone larger s) fun m => (m.manager s).Settled larger s := by
  refine Kept.ofManager ?_ ?_ ?_
  · intro m i n region hm hi hle _ r hr
    obtain ⟨j, hj⟩ := List.mem_iff_getElem?.mp hr
    rcases getElem?_decrease hi hj with ⟨-, hj⟩ | ⟨-, ⟨-, rfl⟩ | hlast⟩
    · exact hm r (List.mem_of_getElem? hj)
    · exact fun hp => hm region (List.mem_of_getElem? hi) (hp.of_drop hl hle)
    · exact hm r (mem_of_moved hlast)
  · intro p page hm hpage r hr
    rcases List.mem_append.mp hr with hr | hr
    · exact hm r hr
    · rw [List.mem_singleton.mp hr]
      exact not_promotable_of_lt hpage
  · intro m newBuf hm hlists r hr
    rcases List.mem_append.mp hr with hr | hr
    · exact hm r hr
    · rw [List.mem_singleton.mp hr]
      exact hlists rfl

end Passed

/-! ## One round -/

/-- All regions of a manager are whole. -/
def PhysicalMemoryManager.AllWhole (p : PhysicalMemoryManager) (s : PageSize) : Prop :=
  ∀ r ∈ p.memory, r.Whole s

section Round

variable {m m' : PhysicalMemory} {s larger : PageSize} {depth i j : Nat} {memory : PagedMemory}
  {p : PhysicalMemoryManager} {n : U64} {u : Unit} {allocate : U64 → Kernel U64}

/-- With room in the table, a freed region is listed. -/
theorem freePhysicalPagesWithManager_room {page : PagedMemory}
    (hroom : (m.manager s).memory.length < (m.manager s).cap.toNat) :
    freePhysicalPagesWithManager allocate s [page] m = .ok u m' ↔
      m.setManager s ((m.manager s).push page) = m' := by
  rw [freePhysicalPagesWithManager_cons_eq_ok]
  constructor
  · rintro ⟨m₁, hcapacity, hrest⟩
    rcases ensureCapacity_eq_ok.mp hcapacity with ⟨-, rfl⟩ | ⟨hfull, -⟩
    · exact (pure_eq_ok.mp hrest).2
    · omega
  · rintro rfl
    exact ⟨m, ensureCapacity_eq_ok.mpr (.inl ⟨hroom, rfl⟩), pure_eq_ok.mpr ⟨rfl, rfl⟩⟩

/-- A decrease leaves whole regions. -/
theorem PhysicalMemoryManager.AllWhole.decrease (h : p.AllWhole s)
    (hi : p.memory[i]? = some memory) (hn : n ≤ memory.numberOfPages) :
    (p.decrease s i memory n).AllWhole s := by
  intro r hr
  unfold PhysicalMemoryManager.decrease at hr
  split at hr
  · exact h r ((swapRemove_perm hi).subset (List.mem_cons_of_mem _ hr))
  · rename_i hne
    rcases List.mem_or_eq_of_mem_set hr with hr | rfl
    · exact h r hr
    · refine (h memory (List.mem_of_getElem? hi)).drop (lt_of_le_of_ne hn fun heq => ?_)
      exact hne (BitVec.eq_of_toNat_eq heq.symm)

/-- The pages that a round gives back. -/
def leftover (larger s : PageSize) (r : PagedMemory) : List PagedMemory :=
  let left := pagesFromAlign larger s r - alignDownValue (pagesFromAlign larger s r) 512
  if 0 < left then
    [⟨alignUpValue r.pageStart larger.value +
      alignDownValue (pagesFromAlign larger s r) 512 * s.value, left⟩]
  else []

/-- The pages of the larger size that a round moves up. -/
def promoted (larger s : PageSize) (r : PagedMemory) : PagedMemory :=
  ⟨alignUpValue r.pageStart larger.value,
    toLargerPages (alignDownValue (pagesFromAlign larger s r) 512)⟩

/-- What a round does that finds room in both tables. -/
structure Promotes (larger s : PageSize) (i : Nat) (memory : PagedMemory)
    (m m' : PhysicalMemory) : Prop where
  cap : (m'.manager s).cap = (m.manager s).cap
  usedBasePages : (m'.manager s).usedBasePages = (m.manager s).usedBasePages
  listS : (m'.manager s).memory =
    ((m.manager s).decrease s i memory (pagesFromAlign larger s memory)).memory ++
      leftover larger s memory
  listL : (m'.manager larger).memory = (m.manager larger).memory ++ [promoted larger s memory]
  others : ∀ t, t ≠ s → t ≠ larger → m'.manager t = m.manager t

/-- The two tests of a round as one. -/
theorem promoteRegion_eq : promoteRegion depth larger s i memory =
    if Promotable larger s memory then do
      decreasePromoted larger s i (pagesFromAlign larger s memory) memory.pageStart
        (alignUpValue memory.pageStart larger.value)
      freePhysicalPage depth (promoted larger s memory) larger
      freeLeftover depth
        ⟨alignUpValue memory.pageStart larger.value +
          alignDownValue (pagesFromAlign larger s memory) 512 * s.value,
          pagesFromAlign larger s memory -
            alignDownValue (pagesFromAlign larger s memory) 512⟩ s
    else return () := by
  unfold promoteRegion
  by_cases hn : 512 ≤ memory.numberOfPages
  · rw [if_pos hn]
    by_cases hfrom : 512 ≤ pagesFromAlign larger s memory
    · rw [if_pos (show Promotable larger s memory from ⟨hn, hfrom⟩)]
      exact if_pos hfrom
    · rw [if_neg (show ¬ Promotable larger s memory from fun hp => hfrom hp.2)]
      exact if_neg hfrom
  · rw [if_neg hn, if_neg (show ¬ Promotable larger s memory from fun hp => hn hp.1)]

/-- Taking the pages to promote, whether or not it is noted. -/
theorem decreasePromoted_of_ok {start boundary : U64}
    (hi : (m.manager s).memory[i]? = some memory)
    (h : decreasePromoted larger s i n start boundary m = .ok u m') (t : PageSize) :
    m'.manager t = (m.setManager s ((m.manager s).decrease s i memory n)).manager t := by
  rw [decreasePromoted, bind_eq_ok] at h
  obtain ⟨_, m₁, hdecrease, hnote⟩ := h
  obtain ⟨region, hregion, -, rfl⟩ := decreasePages_eq_ok.mp hdecrease
  obtain rfl := Option.some.inj (hi.symm.trans hregion)
  split at hnote
  · obtain ⟨-, rfl⟩ := pure_eq_ok.mp hnote
    rfl
  · rw [← note_eq_ok.mp hnote, PhysicalMemory.manager_note]

/-- The condition holds along the two calls of a round that free what was taken. -/
def AlongFrees (condition : Update → PhysicalMemory → Prop) (depth : Nat) (larger s : PageSize)
    (memory : PagedMemory) (m : PhysicalMemory) : Prop :=
  AlongFree condition depth larger m ∧
    IfReturns (freePhysicalPage depth (promoted larger s memory) larger m) fun _ m₁ =>
      leftover larger s memory ≠ [] → AlongFree condition depth s m₁

/-- The condition holds along one round: before the pages are taken that are promoted, and along
the calls behind that. -/
def AlongRound (condition : Update → PhysicalMemory → Prop) (depth : Nat) (larger s : PageSize)
    (i : Nat) (m : PhysicalMemory) : Prop :=
  ∀ memory ∈ (m.manager s).memory[i]?, Promotable larger s memory →
    condition (.decrease s i (pagesFromAlign larger s memory)) m ∧
      IfReturns (decreasePromoted larger s i (pagesFromAlign larger s memory) memory.pageStart
        (alignUpValue memory.pageStart larger.value) m)
        fun _ m₁ => AlongFrees condition depth larger s memory m₁

instance (condition : Update → PhysicalMemory → Prop) [∀ u m, Decidable (condition u m)]
    (depth : Nat) (larger s : PageSize) (memory : PagedMemory) (m : PhysicalMemory) :
    Decidable (AlongFrees condition depth larger s memory m) :=
  inferInstanceAs (Decidable (_ ∧ _))

instance (condition : Update → PhysicalMemory → Prop) [∀ u m, Decidable (condition u m)]
    (depth : Nat) (larger s : PageSize) (i : Nat) (m : PhysicalMemory) :
    Decidable (AlongRound condition depth larger s i m) :=
  inferInstanceAs (Decidable (∀ memory ∈ (m.manager s).memory[i]?, _ → _))

/-- The pages that are left over are listed. -/
theorem freeLeftover_eq : freeLeftover depth
      ⟨alignUpValue memory.pageStart larger.value +
        alignDownValue (pagesFromAlign larger s memory) 512 * s.value,
        pagesFromAlign larger s memory - alignDownValue (pagesFromAlign larger s memory) 512⟩ s =
    freePhysicalPages depth (leftover larger s memory) s := by
  unfold freeLeftover leftover
  dsimp only
  split <;> rfl

/-- There is one region that is left over at most, of less than 512 pages. -/
theorem leftover_cases (larger s : PageSize) (memory : PagedMemory) :
    leftover larger s memory = [] ∨
      ∃ r, leftover larger s memory = [r] ∧ r.numberOfPages.toNat < 512 := by
  unfold leftover
  dsimp only
  split
  · exact .inr ⟨_, rfl, toNat_leftover_lt _⟩
  · exact .inl rfl

/-- The three calls of a round that promotes. -/
theorem promoteRegion_of_promotable (hp : Promotable larger s memory)
    (h : promoteRegion depth larger s i memory m = .ok u m') :
    ∃ m₁ m₂, decreasePromoted larger s i (pagesFromAlign larger s memory) memory.pageStart
        (alignUpValue memory.pageStart larger.value) m = .ok () m₁ ∧
      freePhysicalPage depth (promoted larger s memory) larger m₁ = .ok () m₂ ∧
      freePhysicalPages depth (leftover larger s memory) s m₂ = .ok () m' := by
  rw [promoteRegion_eq, if_pos hp, freeLeftover_eq] at h
  simp only [bind_eq_ok] at h
  obtain ⟨_, m₁, hdecrease, _, m₂, hfree, hleft⟩ := h
  exact ⟨m₁, m₂, hdecrease, hfree, hleft⟩

/-- A region that is not promoted is left alone. -/
theorem promoteRegion_of_not_promotable (hp : ¬ Promotable larger s memory)
    (h : promoteRegion depth larger s i memory m = .ok u m') : m = m' := by
  rw [promoteRegion_eq, if_neg hp] at h
  exact (pure_eq_ok.mp h).2

/-- A round that promotes and finds room in both tables. -/
theorem promotes_of_room (hl : s.larger? = some larger)
    (hi : (m.manager s).memory[i]? = some memory) (hp : Promotable larger s memory)
    (hroomS : (m.manager s).memory.length < (m.manager s).cap.toNat)
    (hroomL : (m.manager larger).memory.length < (m.manager larger).cap.toNat)
    (h : promoteRegion depth larger s i memory m = .ok u m') :
    Promotes larger s i memory m m' := by
  have hne : larger ≠ s := by
    rintro rfl
    cases larger <;> cases hl
  obtain ⟨m₁, m₂, hdecrease, hfree, hleft⟩ := promoteRegion_of_promotable hp h
  have hm₁ := decreasePromoted_of_ok hi hdecrease
  have hsmaller := hm₁ s
  have hlarger := hm₁ larger
  rw [PhysicalMemory.manager_setManager] at hsmaller
  rw [PhysicalMemory.manager_setManager_of_ne _ _ _ _ hne] at hlarger
  have hothers : ∀ t, t ≠ s → m₁.manager t = m.manager t := by
    intro t hts
    rw [hm₁, PhysicalMemory.manager_setManager_of_ne _ _ _ _ hts]
  rw [freePhysicalPage, freePhysicalPages,
    freePhysicalPagesWithManager_room (by rw [hlarger]; exact hroomL)] at hfree
  subst hfree
  have hs₂ : (m₁.setManager larger
      ((m₁.manager larger).push (promoted larger s memory))).manager s =
        (m.manager s).decrease s i memory (pagesFromAlign larger s memory) := by
    rw [PhysicalMemory.manager_setManager_of_ne _ _ _ _ hne.symm, hsmaller]
  rcases leftover_cases larger s memory with hnone | ⟨r, hone, -⟩
  · rw [hnone] at hleft
    obtain ⟨-, rfl⟩ := pure_eq_ok.mp hleft
    refine ⟨?_, ?_, ?_, ?_, fun t hts htl => ?_⟩
    · rw [hs₂, PhysicalMemoryManager.cap_decrease]
    · rw [hs₂, PhysicalMemoryManager.usedBasePages_decrease]
    · rw [hs₂, hnone, List.append_nil]
    · rw [PhysicalMemory.manager_setManager, hlarger]
      rfl
    · rw [PhysicalMemory.manager_setManager_of_ne _ _ _ _ htl, hothers t hts]
  · -- Some pages are left over, and listed where the pages were taken from.
    rw [hone, freePhysicalPages, freePhysicalPagesWithManager_room (by
      rw [hs₂, PhysicalMemoryManager.cap_decrease]
      exact length_decrease_le.trans_lt hroomS)] at hleft
    subst hleft
    refine ⟨?_, ?_, ?_, ?_, fun t hts htl => ?_⟩
    · rw [PhysicalMemory.manager_setManager, hs₂]
      exact PhysicalMemoryManager.cap_decrease
    · rw [PhysicalMemory.manager_setManager, hs₂]
      exact PhysicalMemoryManager.usedBasePages_decrease ..
    · rw [PhysicalMemory.manager_setManager, hs₂, hone]
      rfl
    · rw [PhysicalMemory.manager_setManager_of_ne _ _ _ _ hne, PhysicalMemory.manager_setManager,
        hlarger]
      rfl
    · rw [PhysicalMemory.manager_setManager_of_ne _ _ _ _ hts,
        PhysicalMemory.manager_setManager_of_ne _ _ _ _ htl, hothers t hts]

/-- Along a round that finds room in both tables, only the first update counts. -/
theorem alongRound_of_room {condition : Update → PhysicalMemory → Prop}
    (hl : s.larger? = some larger) (hi : (m.manager s).memory[i]? = some memory)
    (hp : Promotable larger s memory)
    (hroomS : (m.manager s).memory.length < (m.manager s).cap.toNat)
    (hroomL : (m.manager larger).memory.length < (m.manager larger).cap.toNat) :
    AlongRound condition depth larger s i m ↔
      condition (.decrease s i (pagesFromAlign larger s memory)) m := by
  have hne : larger ≠ s := by
    rintro rfl
    cases larger <;> cases hl
  refine ⟨fun h => (h memory hi hp).1, fun hcondition memory' hi' _ => ?_⟩
  obtain rfl := Option.some.inj (hi.symm.trans hi')
  refine ⟨hcondition, fun _ m₁ hdecrease => ?_⟩
  have hm₁ := decreasePromoted_of_ok hi hdecrease
  have hlarger : m₁.manager larger = m.manager larger := by
    rw [hm₁, PhysicalMemory.manager_setManager_of_ne _ _ _ _ hne]
  refine ⟨alongFree_of_room (by rwa [hlarger]), fun _ m₂ hfree _ => alongFree_of_room ?_⟩
  rw [freePhysicalPage, freePhysicalPages,
    freePhysicalPagesWithManager_room (by rwa [hlarger])] at hfree
  subst hfree
  rw [PhysicalMemory.manager_setManager_of_ne _ _ _ _ hne.symm, hm₁,
    PhysicalMemory.manager_setManager, PhysicalMemoryManager.cap_decrease]
  exact length_decrease_le.trans_lt hroomS

/-- The pages from the first larger page on are a region. -/
theorem PagedMemory.Whole.fromBoundary (hl : s.larger? = some larger) (hw : memory.Whole s)
    (hp : Promotable larger s memory) :
    PagedMemory.Whole s ⟨alignUpValue memory.pageStart larger.value,
      pagesFromAlign larger s memory⟩ := by
  obtain ⟨hup, hround⟩ := hw.boundary hl hp.1
  have hpages := toNat_pagesFromAlign hl hp.1
  have hlt := pagesToBoundary_lt hl memory.pageStart
  have hb := PagedMemory.bounded_iff.mp hw.bounded
  have hn : 512 ≤ memory.numberOfPages.toNat := hp.1
  have hsum : memory.numberOfPages.toNat * s.bytes =
      pagesToBoundary larger s memory.pageStart * s.bytes +
        (memory.numberOfPages.toNat - pagesToBoundary larger s memory.pageStart) * s.bytes := by
    rw [← Nat.add_mul, Nat.add_sub_cancel' (by omega)]
  constructor
  · rw [hup]
    exact (PageSize.bytes_dvd_larger hl).trans dvd_roundUp
  · rw [PagedMemory.bounded_iff, hup, hround, hpages]
    omega

/-- What a round gives back is whole. -/
theorem leftover_whole (hl : s.larger? = some larger) (hw : memory.Whole s)
    (hp : Promotable larger s memory) {r : PagedMemory} (hr : r ∈ leftover larger s memory) :
    r.Whole s := by
  have hfrom := hw.fromBoundary hl hp
  obtain ⟨-, hle⟩ := toNat_alignDownValue_512 (pagesFromAlign larger s memory)
  unfold leftover at hr
  dsimp only at hr
  split at hr
  · rename_i hpos
    rw [BitVec.lt_def, BitVec.toNat_sub_of_le (BitVec.le_def.mpr hle)] at hpos
    change 0 < _ at hpos
    obtain rfl := List.mem_singleton.mp hr
    exact hfrom.drop (by dsimp only; omega)
  · cases hr

/-- And it holds no larger page. -/
theorem leftover_not_promotable {r : PagedMemory} (hr : r ∈ leftover larger s memory) :
    ¬ Promotable larger s r := by
  rcases leftover_cases larger s memory with hnone | ⟨r', hone, hfew⟩
  · rw [hnone] at hr
    cases hr
  · rw [hone] at hr
    rw [List.mem_singleton.mp hr]
    exact not_promotable_of_lt hfew

/-- What a round moves up is whole. -/
theorem promoted_whole (hl : s.larger? = some larger) (hw : memory.Whole s)
    (hp : Promotable larger s memory) : (promoted larger s memory).Whole larger := by
  have hb := PagedMemory.bounded_iff.mp (hw.fromBoundary hl hp).bounded
  obtain ⟨hwhole, hle⟩ := toNat_alignDownValue_512 (pagesFromAlign larger s memory)
  refine ⟨larger_bytes_dvd_alignUpValue _, ?_⟩
  have hmul := Nat.mul_le_mul_right s.bytes hle
  rw [PagedMemory.bounded_iff, promoted, PageSize.larger?_bytes hl, ← Nat.mul_assoc, ← hwhole]
  exact (Nat.add_le_add_left hmul _).trans hb

end Round

/-! ## The loop -/

section Loop

variable {m m' : PhysicalMemory} {s larger t : PageSize} {depth rounds i j : Nat}
  {memory r : PagedMemory} {p : PhysicalMemoryManager} {n : U64} {u : Unit}
  {spared : List PagedMemory → PagedMemory → Prop} {inv : PhysicalMemory → Prop}
  {condition : Update → PhysicalMemory → Prop}

/-- Before every round that the loop of `initPMM` makes, the condition holds of the index and the
managers. -/
def EveryRound (condition : Nat → PhysicalMemory → Prop) (depth : Nat) (larger s : PageSize) :
    Nat → Nat → PhysicalMemory → Prop
  | 0, _, _ => True
  | rounds + 1, i, m => ∀ memory, (m.manager s).memory[i]? = some memory → condition i m ∧
      ∀ m', promoteRegion depth larger s i memory m = .ok () m' →
        EveryRound condition depth larger s rounds (i + 1) m'

/-- A round that promotes finds room in both tables. -/
def RoomToPromote (larger s : PageSize) (i : Nat) (m : PhysicalMemory) : Prop :=
  ∀ memory, (m.manager s).memory[i]? = some memory → Promotable larger s memory →
    (m.manager s).memory.length < (m.manager s).cap.toNat ∧
      (m.manager larger).memory.length < (m.manager larger).cap.toNat

/-- The rounds from one on are that round and those behind it. -/
theorem everyRound_succ {condition : Nat → PhysicalMemory → Prop} {m₁ : PhysicalMemory}
    (hi : (m.manager s).memory[i]? = some memory)
    (h : promoteRegion depth larger s i memory m = .ok () m₁) :
    EveryRound condition depth larger s (rounds + 1) i m ↔
      condition i m ∧ EveryRound condition depth larger s rounds (i + 1) m₁ := by
  constructor
  · intro hevery
    obtain ⟨hcondition, hrest⟩ := hevery memory hi
    exact ⟨hcondition, hrest m₁ h⟩
  · rintro ⟨hcondition, hrest⟩ memory' hi'
    obtain rfl := Option.some.inj (hi.symm.trans hi')
    refine ⟨hcondition, fun m₂ h₂ => ?_⟩
    rw [h] at h₂
    cases h₂
    exact hrest

/-- The loop is at its end, or makes one more round. -/
theorem promoteRegions_succ_eq_ok :
    promoteRegions depth larger s (rounds + 1) i m = .ok u m' ↔
      (m.manager s).memory[i]? = none ∧ m = m' ∨
        ∃ memory m₁, (m.manager s).memory[i]? = some memory ∧
          promoteRegion depth larger s i memory m = .ok () m₁ ∧
          promoteRegions depth larger s rounds (i + 1) m₁ = .ok u m' := by
  simp only [promoteRegions, bind_eq_ok, getMemoryManager_eq_ok]
  constructor
  · rintro ⟨_, _, ⟨rfl, rfl⟩, h⟩
    cases hi : (m.manager s).memory[i]? with
    | none =>
      rw [hi] at h
      exact .inl ⟨rfl, (pure_eq_ok.mp h).2⟩
    | some memory =>
      rw [hi] at h
      simp only [bind_eq_ok] at h
      obtain ⟨_, m₁, hround, hrest⟩ := h
      exact .inr ⟨memory, m₁, rfl, hround, hrest⟩
  · rintro (⟨hi, rfl⟩ | ⟨memory, m₁, hi, hround, hrest⟩)
    · refine ⟨_, _, ⟨rfl, rfl⟩, ?_⟩
      rw [hi]
      rfl
    · refine ⟨_, _, ⟨rfl, rfl⟩, ?_⟩
      rw [hi]
      exact bind_eq_ok.mpr ⟨(), m₁, hround, hrest⟩

/-! ### What no update of a loop destroys -/

/-- The calls behind the first one of a round keep what their updates keep. -/
theorem Kept.frees {m₁ m₂ : PhysicalMemory} (hkept : Kept t condition inv) (ht : t ≠ larger)
    (halong : AlongFrees condition depth larger s memory m₁) (hm₁ : inv m₁)
    (hfree : freePhysicalPage depth (promoted larger s memory) larger m₁ = .ok () m₂)
    (hleft : freePhysicalPages depth (leftover larger s memory) s m₂ = .ok () m') : inv m' := by
  have hm₂ : inv m₂ := hkept.free halong.1 hm₁ (fun heq => absurd heq.symm ht) hfree
  rcases leftover_cases larger s memory with hnone | ⟨r, hone, hfew⟩
  · rw [hnone] at hleft
    obtain ⟨-, rfl⟩ := pure_eq_ok.mp hleft
    exact hm₂
  · have hagain := halong.2 () m₂ hfree (by rw [hone]; exact List.cons_ne_nil _ _)
    rw [hone] at hleft
    exact hkept.free hagain hm₂ (fun _ => hfew) hleft

/-- One round keeps what its updates keep. -/
theorem Kept.promoteRegion (hkept : Kept t condition inv) (ht : t ≠ larger)
    (hi : (m.manager s).memory[i]? = some memory)
    (halong : AlongRound condition depth larger s i m) (hm : inv m)
    (h : Memory.promoteRegion depth larger s i memory m = .ok u m') : inv m' := by
  by_cases hp : Promotable larger s memory
  · obtain ⟨hfirst, hrest⟩ := halong memory hi hp
    obtain ⟨m₁, m₂, hdecrease, hfree, hleft⟩ := promoteRegion_of_promotable hp h
    refine hkept.frees ht (hrest () m₁ hdecrease) ?_ hfree hleft
    rw [decreasePromoted, bind_eq_ok] at hdecrease
    obtain ⟨_, m₀, htake, hnote⟩ := hdecrease
    obtain ⟨region, hregion, hle, rfl⟩ := decreasePages_eq_ok.mp htake
    have hm₀ := hkept.decrease hm hregion hle hfirst
    split at hnote
    · obtain ⟨-, rfl⟩ := pure_eq_ok.mp hnote
      exact hm₀
    · rw [← note_eq_ok.mp hnote]
      exact hkept.note hm₀
  · rw [← promoteRegion_of_not_promotable hp h]
    exact hm

/-- The loop keeps what its updates keep. -/
theorem Kept.promoteRegions (hkept : Kept t condition inv) (ht : t ≠ larger)
    (halong : EveryRound (AlongRound condition depth larger s) depth larger s rounds i m)
    (hm : inv m) (h : Memory.promoteRegions depth larger s rounds i m = .ok u m') : inv m' := by
  induction rounds generalizing i m with
  | zero => exact (throw_eq_ok.mp h).elim
  | succ rounds ih =>
    rcases promoteRegions_succ_eq_ok.mp h with ⟨-, rfl⟩ | ⟨memory, m₁, hi, hround, hrest⟩
    · exact hm
    · obtain ⟨hnow, hlater⟩ := (everyRound_succ hi hround).mp halong
      exact ih hlater (hkept.promoteRegion ht hi hnow hm hround) hrest

/-- The step lemma: a round that skips none leaves no larger page up to its index. -/
theorem settledTo_promoteRegion (hl : s.larger? = some larger)
    (hi : (m.manager s).memory[i]? = some memory)
    (halong : AlongRound (SkipsNone (Unpromotable larger s) larger s i) depth larger s i m)
    (hm : (m.manager s).SettledTo larger s i)
    (h : Memory.promoteRegion depth larger s i memory m = .ok u m') :
    (m'.manager s).SettledTo larger s (i + 1) := by
  by_cases hp : Promotable larger s memory
  · have hne : s ≠ larger := by
      rintro rfl
      cases s <;> cases hl
    obtain ⟨hfirst, hrest⟩ := halong memory hi hp
    obtain ⟨m₁, m₂, hdecrease, hfree, hleft⟩ := promoteRegion_of_promotable hp h
    refine (kept_settledTo hl).frees hne (hrest () m₁ hdecrease) ?_ hfree hleft
    rw [decreasePromoted_of_ok hi hdecrease, PhysicalMemory.manager_setManager]
    refine settledTo_decrease hi ?_ (fun _ _ => not_promotable_kept hl hp) fun _ =>
      hfirst rfl le_rfl
    intro j hj hji
    exact hm j (by omega)
  · rw [← promoteRegion_of_not_promotable hp h]
    refine examined_succ.mpr ⟨hm, fun r hr => ?_⟩
    obtain rfl := Option.some.inj (hi.symm.trans hr)
    exact hp

/-- The run lemma: a loop whose rounds skip none leaves no larger page. -/
theorem settled_promoteRegions (hl : s.larger? = some larger)
    (halong : EveryRound (fun i => AlongRound (SkipsNone (Unpromotable larger s) larger s i) depth
      larger s i) depth larger s rounds i m)
    (hm : (m.manager s).SettledTo larger s i)
    (h : Memory.promoteRegions depth larger s rounds i m = .ok u m') :
    (m'.manager s).Settled larger s := by
  induction rounds generalizing i m with
  | zero => exact (throw_eq_ok.mp h).elim
  | succ rounds ih =>
    rcases promoteRegions_succ_eq_ok.mp h with ⟨hend, rfl⟩ | ⟨memory, m₁, hi, hround, hrest⟩
    · intro r hr
      obtain ⟨j, hj⟩ := List.mem_iff_getElem?.mp hr
      have hbound := (List.getElem?_eq_some_iff.mp hj).1
      exact hm j (hbound.trans_le (List.getElem?_eq_none_iff.mp hend)) r hj
    · obtain ⟨hnow, hlater⟩ := (everyRound_succ hi hround).mp halong
      exact ih hlater (settledTo_promoteRegion hl hi hnow hm hround) hrest

/-! ### Rounds that find room in both tables -/

/-- Only the regions below the index matter. -/
theorem examined_congr {regions regions' : List PagedMemory}
    (h : regions.take i = regions'.take i) :
    Examined spared i regions ↔ Examined spared i regions' := by
  have hone : ∀ {regions regions' : List PagedMemory}, regions.take i = regions'.take i →
      Examined spared i regions → Examined spared i regions' := by
    intro regions regions' h hex j hj r hr
    have hget : regions[j]? = some r := by
      rw [← List.getElem?_take_of_lt hj, h, List.getElem?_take_of_lt hj, hr]
    have htake : regions.take j = regions'.take j := by
      have hcut := congrArg (List.take j) h
      rwa [List.take_take, List.take_take, min_eq_left hj.le] at hcut
    rw [← htake]
    exact hex j hj r hget
  exact ⟨hone h, hone h.symm⟩

/-- The step lemma: after a round the regions up to its index are spared, exactly when they were
before it and no other one was moved there. -/
theorem Promotes.examined_iff (hl : s.larger? = some larger)
    (hi : (m.manager s).memory[i]? = some memory)
    (hspared : ∀ regions r, ¬ Promotable larger s r → spared regions r)
    (hp : Promotable larger s memory) (h : Promotes larger s i memory m m') :
    Examined spared (i + 1) (m'.manager s).memory ↔
      Examined spared i (m.manager s).memory ∧
        SkipsNone spared larger s i (.decrease s i (pagesFromAlign larger s memory)) m := by
  have hbound := (List.getElem?_eq_some_iff.mp hi).1
  have hskips : SkipsNone spared larger s i (.decrease s i (pagesFromAlign larger s memory)) m ↔
      ∀ last ∈ (m.manager s).moved? i (pagesFromAlign larger s memory),
        spared ((m.manager s).memory.take i) last :=
    ⟨fun hskips => hskips rfl le_rfl, fun hskips _ _ => hskips⟩
  have htake : (m'.manager s).memory.take i = (m.manager s).memory.take i := by
    rw [h.listS, take_decrease_append hi]
  rw [examined_succ, examined_congr htake, htake, hskips]
  refine and_congr_right fun _ => ⟨fun hat last hlast => hat last ?_, fun hmoved r hr => ?_⟩
  · rw [h.listS, getElem?_decrease_moved hlast hi]
  · rw [h.listS] at hr
    rcases getElem?_append_cases hr with hr | ⟨-, hr⟩
    · rcases getElem?_decrease hi hr with ⟨hne, -⟩ | ⟨-, ⟨-, rfl⟩ | hlast⟩
      · exact absurd rfl hne
      · exact hspared _ _ (not_promotable_kept hl hp)
      · exact hmoved r hlast
    · exact hspared _ _ (leftover_not_promotable hr)

/-- A round keeps all regions whole. -/
theorem Promotes.allWhole (hl : s.larger? = some larger)
    (hi : (m.manager s).memory[i]? = some memory) (hp : Promotable larger s memory)
    (h : Promotes larger s i memory m m') (hs : (m.manager s).AllWhole s)
    (hlarger : (m.manager larger).AllWhole larger) :
    (m'.manager s).AllWhole s ∧ (m'.manager larger).AllWhole larger := by
  have hw := hs memory (List.mem_of_getElem? hi)
  have hle : pagesFromAlign larger s memory ≤ memory.numberOfPages := by
    rw [BitVec.le_def, toNat_pagesFromAlign hl hp.1]
    exact Nat.sub_le _ _
  constructor
  · intro r hr
    rw [h.listS] at hr
    rcases List.mem_append.mp hr with hr | hr
    · exact PhysicalMemoryManager.AllWhole.decrease hs hi hle r hr
    · exact leftover_whole hl hw hp hr
  · intro r hr
    rw [h.listL] at hr
    rcases List.mem_append.mp hr with hr | hr
    · exact hlarger r hr
    · rw [List.mem_singleton.mp hr]
      exact promoted_whole hl hw hp

/-- The condition can be computed along the loop. -/
instance EveryRound.decidable (condition : Nat → PhysicalMemory → Prop)
    [∀ i m, Decidable (condition i m)] (depth : Nat) (larger s : PageSize) :
    ∀ rounds i m, Decidable (EveryRound condition depth larger s rounds i m)
  | 0, _, _ => isTrue trivial
  | rounds + 1, i, m =>
    match hi : (m.manager s).memory[i]? with
    | none => isTrue fun memory hsome => by rw [hi] at hsome; cases hsome
    | some memory =>
      match hround : promoteRegion depth larger s i memory m with
      | .ok _ m₁ =>
        have := EveryRound.decidable condition depth larger s rounds (i + 1) m₁
        decidable_of_iff _ (everyRound_succ hi hround).symm
      | .error _ _ => decidable_of_iff (condition i m) ⟨fun hcondition memory' hi' => by
          obtain rfl := Option.some.inj (hi.symm.trans hi')
          exact ⟨hcondition, fun m' hok => by rw [hround] at hok; cases hok⟩,
        fun hevery => (hevery memory hi).1⟩

instance (larger s : PageSize) (i : Nat) (m : PhysicalMemory) :
    Decidable (RoomToPromote larger s i m) :=
  decidable_of_iff (∀ memory ∈ (m.manager s).memory[i]?.toList, Promotable larger s memory →
    (m.manager s).memory.length < (m.manager s).cap.toNat ∧
      (m.manager larger).memory.length < (m.manager larger).cap.toNat) (by
    simp only [RoomToPromote, Option.mem_toList])

/-- Rounds that find room move no table. -/
theorem everyRound_of_room (hl : s.larger? = some larger)
    (hroom : EveryRound (RoomToPromote larger s) depth larger s rounds i m)
    (hdecrease : ∀ t j n m, condition (.decrease t j n) m) :
    EveryRound (AlongRound condition depth larger s) depth larger s rounds i m := by
  induction rounds generalizing i m with
  | zero => trivial
  | succ rounds ih =>
    intro memory hi
    obtain ⟨hroomNow, hroomRest⟩ := hroom memory hi
    refine ⟨fun memory' hi' hp => ?_, fun m₁ hround => ih (hroomRest m₁ hround)⟩
    obtain ⟨hroomS, hroomL⟩ := hroomNow memory' hi' hp
    exact (alongRound_of_room hl hi' hp hroomS hroomL).mpr (hdecrease ..) memory' hi' hp

/-- What the loop of `initPMM` leaves, when its rounds find room in both tables. -/
structure LoopResult (spared : List PagedMemory → PagedMemory → Prop) (depth : Nat)
    (larger s : PageSize) (rounds i : Nat) (m m' : PhysicalMemory) : Prop where
  examined_iff : Examined spared (m'.manager s).memory.length (m'.manager s).memory ↔
    Examined spared i (m.manager s).memory ∧
      EveryRound (fun i => AlongRound (SkipsNone spared larger s i) depth larger s i) depth larger s
        rounds i m
  wholeS : (m'.manager s).AllWhole s
  wholeL : (m'.manager larger).AllWhole larger
  cap : (m'.manager s).cap = (m.manager s).cap
  usedBasePages : (m'.manager s).usedBasePages = (m.manager s).usedBasePages
  others : ∀ t, t ≠ s → t ≠ larger → m'.manager t = m.manager t

/-- The run lemma: all regions are spared after the loop exactly when no round has moved one
that was not. -/
theorem promoteRegions_of_room (hl : s.larger? = some larger)
    (hspared : ∀ regions r, ¬ Promotable larger s r → spared regions r)
    (hroom : EveryRound (RoomToPromote larger s) depth larger s rounds i m)
    (hs : (m.manager s).AllWhole s) (hlarger : (m.manager larger).AllWhole larger)
    (h : promoteRegions depth larger s rounds i m = .ok u m') :
    LoopResult spared depth larger s rounds i m m' := by
  induction rounds generalizing i m with
  | zero => exact (throw_eq_ok.mp h).elim
  | succ rounds ih =>
    rcases promoteRegions_succ_eq_ok.mp h with ⟨hi, rfl⟩ | ⟨memory, m₁, hi, hround, hrest⟩
    · refine ⟨?_, hs, hlarger, rfl, rfl, fun _ _ _ => rfl⟩
      have hend := List.getElem?_eq_none_iff.mp hi
      have hevery : EveryRound (fun i => AlongRound (SkipsNone spared larger s i) depth larger s i)
          depth larger s (rounds + 1) i m := by
        intro memory hsome
        rw [hi] at hsome
        cases hsome
      rw [and_iff_left hevery]
      constructor
      · intro hex j _ r hr
        exact hex j (List.getElem?_eq_some_iff.mp hr).1 r hr
      · intro hex j hj
        exact hex j (hj.trans_le hend)
    · obtain ⟨hroomNow, hroomRest⟩ := (everyRound_succ hi hround).mp hroom
      by_cases hp : Promotable larger s memory
      · obtain ⟨hroomS, hroomL⟩ := hroomNow memory hi hp
        have hpromotes := promotes_of_room hl hi hp hroomS hroomL hround
        obtain ⟨hs₁, hlarger₁⟩ := hpromotes.allWhole hl hi hp hs hlarger
        have hresult := ih hroomRest hs₁ hlarger₁ hrest
        refine ⟨?_, hresult.wholeS, hresult.wholeL, hresult.cap.trans hpromotes.cap,
          hresult.usedBasePages.trans hpromotes.usedBasePages, fun t hts htl => ?_⟩
        · rw [hresult.examined_iff, everyRound_succ hi hround,
            hpromotes.examined_iff hl hi hspared hp, alongRound_of_room hl hi hp hroomS hroomL,
            and_assoc]
        · rw [hresult.others t hts htl, hpromotes.others t hts htl]
      · obtain rfl := promoteRegion_of_not_promotable hp hround
        have hresult := ih hroomRest hs hlarger hrest
        refine ⟨?_, hresult.wholeS, hresult.wholeL, hresult.cap, hresult.usedBasePages,
          hresult.others⟩
        rw [hresult.examined_iff, everyRound_succ hi hround, examined_succ, and_assoc]
        refine and_congr_right fun _ => and_congr_left fun _ => iff_of_true ?_ ?_
        · intro r hr
          obtain rfl := Option.some.inj (hi.symm.trans hr)
          exact hspared _ _ hp
        · intro memory' hi' hp'
          obtain rfl := Option.some.inj (hi.symm.trans hi')
          exact absurd hp' hp

end Loop

end Homegrown.Memory
