import Mathlib.Tactic.IntervalCases
import Homegrown.Core.Radix
import Homegrown.Memory.Virtual.Map

/-!
# The page tables as a radix tree

A virtual address has one index for each level. The page tables hold the tree whose tables
are the frames in use and whose leaves are the mapped pages, by their path:
`getMappedPage` finds the leaf on the path of its address, and the inner loop of the mapper
grows the tree by one leaf.
-/

namespace Homegrown.Memory

open Radix

/-! ## Paths -/

/-- The index of an address in the tables of a level. -/
def levelIndex (virt : U64) (level : Nat) : BitVec 9 := (virt >>> (39 - 9 * level)).setWidth 9

/-- The indices of an address through so many levels, the deepest first. -/
def path (virt : U64) : Nat → List (BitVec 9)
  | 0 => []
  | level + 1 => levelIndex virt level :: path virt level

/-- What a path of so many indices covers, in bytes. -/
def pathSize (depth : Nat) : U64 := BitVec.ofNat 64 (2 ^ (48 - 9 * depth))

section Path

variable {virt v w : U64} {level depth : Nat}

@[simp] theorem length_path : (path virt depth).length = depth := by
  induction depth with
  | zero => rfl
  | succ depth ih => rw [path, List.length_cons, ih]

theorem path_suffix (h : level ≤ depth) : path virt level <:+ path virt depth := by
  induction depth, h using Nat.le_induction with
  | base => exact List.suffix_rfl
  | succ depth _ ih => exact ih.trans (List.suffix_cons _ _)

theorem path_ne (h : level ≠ depth) : path virt level ≠ path virt depth := fun heq =>
  h (by simpa only [length_path] using congrArg List.length heq)

/-- What lies above a path is the path of the same address through fewer levels. -/
theorem eq_path_of_suffix {p : List (BitVec 9)} (h : p <:+ path virt depth) :
    p = path virt p.length := by
  have hle := h.length_le
  rw [length_path] at hle
  have hsuffix := List.suffix_of_suffix_length_le h (path_suffix hle) (by rw [length_path])
  exact hsuffix.eq_of_length (by rw [length_path])

theorem toNat_levelIndex :
    (levelIndex virt level).toNat = virt.toNat / 2 ^ (39 - 9 * level) % 512 := by
  rw [levelIndex, BitVec.toNat_setWidth, BitVec.toNat_ushiftRight, Nat.shiftRight_eq_div_pow]

/-- Two addresses have the same path where they agree above what it covers. -/
theorem path_eq_iff (h : depth ≤ 4) : path v depth = path w depth ↔
    v.toNat % 2 ^ 48 / 2 ^ (48 - 9 * depth) = w.toNat % 2 ^ 48 / 2 ^ (48 - 9 * depth) := by
  induction depth with
  | zero =>
    have hv := Nat.mod_lt v.toNat (by norm_num : 0 < 2 ^ 48)
    have hw := Nat.mod_lt w.toNat (by norm_num : 0 < 2 ^ 48)
    rw [Nat.div_eq_of_lt hv, Nat.div_eq_of_lt hw]
    exact ⟨fun _ => rfl, fun _ => rfl⟩
  | succ depth ih =>
    have hcut : ∀ x : Nat, x % 2 ^ 48 / 2 ^ (48 - 9 * (depth + 1)) =
        x % 2 ^ 48 / 2 ^ (48 - 9 * depth) * 512 + x / 2 ^ (39 - 9 * depth) % 512 := by
      intro x
      have hdepth : depth < 4 := by omega
      interval_cases depth <;> omega
    rw [path, path, List.cons.injEq, ih (by omega), ← BitVec.toNat_inj, toNat_levelIndex,
      toNat_levelIndex, hcut, hcut]
    omega

theorem toNat_pathSize : (pathSize depth).toNat = 2 ^ (48 - 9 * depth) := by
  rw [pathSize, BitVec.toNat_ofNat]
  exact Nat.mod_eq_of_lt (Nat.pow_lt_pow_right (by norm_num) (by omega))

theorem pathSize_div (h : depth < 4) :
    pathSize depth / BitVec.ofNat 64 PageTableFormat.entries = pathSize (depth + 1) := by
  interval_cases depth <;> rfl

theorem pathSize_pageSizeToDepth (s : PageSize) : pathSize (pageSizeToDepth s) = s.value := by
  cases s <;> rfl

/-- The index that the walks compute at a level. -/
theorem pageTableIndex_eq (h : level < 4) :
    pageTableIndex virt (pathSize (level + 1)) = (levelIndex virt level).setWidth 64 := by
  have hentries : IsTwoPow (BitVec.ofNat 64 PageTableFormat.entries) 9 := by decide
  apply BitVec.eq_of_toNat_eq
  rw [pageTableIndex, toNat_ringRangeValue hentries, BitVec.toNat_udiv, toNat_pathSize,
    BitVec.toNat_setWidth_of_le (by norm_num), toNat_levelIndex, hentries]
  congr 3
  omega

theorem pageSizeToDepth_le (s : PageSize) : pageSizeToDepth s ≤ 4 := by
  cases s <;> decide

theorem two_le_pageSizeToDepth (s : PageSize) : 2 ≤ pageSizeToDepth s := by
  cases s <;> decide

end Path

/-! ## Entries -/

/-- The word for a slot of the tree. -/
def encodeEntry : Slot U64 U64 → U64
  | .empty => 0
  | .table address =>
    VirtualPageMasks.pagePresent ||| VirtualPageMasks.pageWritable ||| address
  | .leaf value => value

/-- The word holds a page of a size other than the smallest. -/
def Extended (entry : U64) : Prop := entry &&& VirtualPageMasks.pageExtendedSize ≠ 0

instance (entry : U64) : Decidable (Extended entry) := inferInstanceAs (Decidable (_ ≠ _))

section Entry

variable {table table' address : U64} {i j : BitVec 9}

theorem toNat_entryAddress (h : pageFrameSize ∣ table.toNat) :
    (entryAddress table (i.setWidth 64)).toNat = table.toNat + 8 * i.toNat := by
  obtain ⟨c, hc⟩ := h
  have htable := table.isLt
  have hi := i.isLt
  rw [pageFrameSize] at hc
  rw [entryAddress, BitVec.toNat_add, BitVec.toNat_mul, BitVec.toNat_setWidth_of_le (by norm_num)]
  change (table.toNat + 8 * i.toNat % 2 ^ 64) % 2 ^ 64 = _
  omega

/-- Tables at whole frames do not overlap. -/
theorem entryAddress_inj (h : pageFrameSize ∣ table.toNat) (h' : pageFrameSize ∣ table'.toNat) :
    entryAddress table (i.setWidth 64) = entryAddress table' (j.setWidth 64) ↔
      table = table' ∧ i = j := by
  rw [← BitVec.toNat_inj, toNat_entryAddress h, toNat_entryAddress h', ← BitVec.toNat_inj,
    ← BitVec.toNat_inj (x := i)]
  obtain ⟨c, hc⟩ := h
  obtain ⟨c', hc'⟩ := h'
  have hi := i.isLt
  have hj := j.isLt
  rw [pageFrameSize] at hc hc'
  omega

/-- An entry lies within a frame where it is one of its own table. -/
theorem entryAddress_mem_frame (h : pageFrameSize ∣ table.toNat)
    (h' : pageFrameSize ∣ table'.toNat) :
    (table.toNat ≤ (entryAddress table' (j.setWidth 64)).toNat ∧
      (entryAddress table' (j.setWidth 64)).toNat < table.toNat + pageFrameSize) ↔
        table' = table := by
  rw [← BitVec.toNat_inj, toNat_entryAddress h']
  obtain ⟨c, hc⟩ := h
  obtain ⟨c', hc'⟩ := h'
  have hj := j.isLt
  rw [pageFrameSize] at hc hc' ⊢
  omega

/-- The flags of a link to a table lie below its address. -/
theorem toNat_encodeEntry_table (h : pageFrameSize ∣ address.toNat) :
    (encodeEntry (.table address)).toNat = address.toNat + 3 := by
  obtain ⟨c, hc⟩ := h
  have hflags : VirtualPageMasks.pagePresent ||| VirtualPageMasks.pageWritable = 3#64 := rfl
  rw [encodeEntry, hflags, BitVec.toNat_or, hc, Nat.or_comm]
  exact (Nat.two_pow_add_eq_or_of_lt (i := 12) (by decide) c).symm

theorem encodeEntry_table_ne_zero (h : pageFrameSize ∣ address.toNat) :
    encodeEntry (.table address) ≠ 0 := by
  intro hzero
  have hvalue := toNat_encodeEntry_table h
  rw [hzero] at hvalue
  exact absurd hvalue.symm (by
    change address.toNat + 3 ≠ 0
    omega)

/-- Following a link leads to the table. -/
theorem alignDownExp_encodeEntry_table (h : pageFrameSize ∣ address.toNat) :
    alignDownExp (encodeEntry (.table address)) pageFrameShift = address := by
  have hpow : IsTwoPow (1#64 <<< pageFrameShift) 12 := by decide
  apply BitVec.eq_of_toNat_eq
  rw [alignDownExp, hpow.toNat_and_not, toNat_encodeEntry_table h]
  obtain ⟨c, hc⟩ := h
  rw [pageFrameSize] at hc
  omega

/-- A link is not taken for a page. -/
theorem not_extended_table (h : pageFrameSize ∣ address.toNat) :
    ¬ Extended (encodeEntry (.table address)) := by
  have hbit : VirtualPageMasks.pageExtendedSize = BitVec.twoPow 64 7 := rfl
  have hvalue := toNat_encodeEntry_table h
  obtain ⟨c, hc⟩ := h
  rw [Extended, not_not, hbit, BitVec.and_twoPow, BitVec.getLsbD, hvalue, if_neg]
  · rfl
  · rw [hc, pageFrameSize, show 4096 * c + 3 = 2 ^ 12 * c + 3 by rfl,
      Nat.testBit_two_pow_mul_add _ (by norm_num), if_pos (by norm_num)]
    decide

theorem extended_pageEntry {s : PageSize} (h : s ≠ .basePage) (physical flags : U64) :
    Extended (pageEntry s physical flags) := by
  have hbit : VirtualPageMasks.pageExtendedSize = BitVec.twoPow 64 7 := rfl
  have hlarge : s = .hugePage ∨ s = .largePage := by
    cases s <;> simp at h ⊢
  rw [Extended, pageEntry, if_pos hlarge, hbit, BitVec.and_twoPow, if_pos]
  · decide
  · rw [BitVec.getLsbD_or]
    simp

end Entry

/-! ## The tree in memory -/

/-- The page tables below a root hold the tree: tables are whole frames, and a leaf is a
page of one of the page sizes. -/
structure Directory (words : U64 → U64) (root : U64) (r : Radix (BitVec 9) U64 U64) : Prop
    extends r.Stores encodeEntry fun table i => words (entryAddress table (i.setWidth 64)) where
  root_eq : r.table [] = some root
  aligned : ∀ {p t}, r.table p = some t → pageFrameSize ∣ t.toNat
  page : ∀ {p e}, r.leaf p = some e →
    ∃ s : PageSize, p.length = pageSizeToDepth s ∧ (s ≠ .basePage → Extended e)

section Lookup

variable {words : U64 → U64} {root t virt e : U64} {r : Radix (BitVec 9) U64 U64} {s : PageSize}
  {level left : Nat}

/-- The table of the next level, and the entry that links it. -/
theorem Directory.next_table (h : Directory words root r)
    (ht : r.table (path virt level) = some t) (hnext : (r.table (path virt (level + 1))).isSome) :
    ∃ t', r.table (path virt (level + 1)) = some t' ∧
      words (entryAddress t ((levelIndex virt level).setWidth 64)) = encodeEntry (.table t') := by
  obtain ⟨t', ht'⟩ := Option.isSome_iff_exists.mp hnext
  refine ⟨t', ht', ?_⟩
  rw [h.word_eq ht]
  exact congrArg encodeEntry (slot_of_table (h.exclusive hnext) ht')

/-- Above the pages an entry is not zero exactly if it links a table. -/
theorem Directory.entry_ne_zero_iff (h : Directory words root r)
    (ht : r.table (path virt level) = some t) (hleaf : r.leaf (path virt (level + 1)) = none) :
    words (entryAddress t ((levelIndex virt level).setWidth 64)) ≠ 0 ↔
      (r.table (path virt (level + 1))).isSome := by
  constructor
  · intro hentry
    by_contra hno
    rw [Option.not_isSome_iff_eq_none] at hno
    rw [h.word_eq ht] at hentry
    exact hentry (congrArg encodeEntry (slot_of_none hleaf hno))
  · intro hsome
    obtain ⟨t', ht', hword⟩ := h.next_table ht hsome
    rw [hword]
    exact encodeEntry_table_ne_zero (h.aligned ht')

/-- The walk from a level above the page. -/
theorem Directory.getMappedPageFrom_eq (h : Directory words root r)
    (he : r.leaf (path virt (pageSizeToDepth s)) = some e) (hlevels : level + left = 4)
    (hlevel : level < pageSizeToDepth s) (ht : r.table (path virt level) = some t)
    {result : MappedPage} (hresult : result.pageSize = pathSize level) :
    getMappedPageFrom words virt left level (pathSize (level + 1)) t result = ⟨e, s.value⟩ := by
  induction left generalizing level t result with
  | zero =>
    have hle := pageSizeToDepth_le s
    omega
  | succ left ih =>
    have hlevel4 : level < 4 := by omega
    rw [getMappedPageFrom, pageTableIndex_eq hlevel4, hresult, pathSize_div hlevel4]
    rcases Nat.lt_or_ge (level + 1) (pageSizeToDepth s) with hbelow | hat
    · have hsuffix : path virt (level + 1) <:+ path virt (pageSizeToDepth s) :=
        path_suffix hbelow.le
      have htable := h.table_of_leaf (q := path virt (pageSizeToDepth s)) (by rw [he]; rfl)
        hsuffix (path_ne hbelow.ne)
      obtain ⟨t', ht', hentry⟩ := h.next_table ht htable
      have haligned := h.aligned ht'
      have hle := pageSizeToDepth_le s
      rw [hentry, if_neg fun hpage => not_extended_table haligned hpage.2,
        alignDownExp_encodeEntry_table haligned, pathSize_div (by omega)]
      exact ih (by omega) hbelow ht' rfl
    · obtain hdepth : level + 1 = pageSizeToDepth s := by omega
      have hentry : words (entryAddress t ((levelIndex virt level).setWidth 64)) = e := by
        rw [h.word_eq ht]
        rw [← hdepth] at he
        exact congrArg encodeEntry (slot_of_leaf he)
      rw [hentry, hdepth, pathSize_pageSizeToDepth]
      cases s with
      | basePage =>
        obtain rfl : left = 0 := by
          change level + 1 = 4 at hdepth
          omega
        split <;> rfl
      | largePage =>
        obtain rfl : level = 2 := Nat.succ.inj hdepth
        obtain ⟨s', hlength, hextended⟩ := h.page he
        rw [if_pos ⟨rfl, hextended (by
          rintro rfl
          rw [length_path] at hlength
          exact absurd hlength (by decide))⟩]
      | hugePage =>
        obtain rfl : level = 1 := Nat.succ.inj hdepth
        obtain ⟨s', hlength, hextended⟩ := h.page he
        rw [if_pos ⟨rfl, hextended (by
          rintro rfl
          rw [length_path] at hlength
          exact absurd hlength (by decide))⟩]

/-- `getMappedPage` finds the page on the path of its address. -/
theorem Directory.getMappedPage_eq (h : Directory words root r)
    (he : r.leaf (path virt (pageSizeToDepth s)) = some e) :
    getMappedPage words root virt = ⟨e, s.value⟩ := by
  have hdepth := two_le_pageSizeToDepth s
  exact h.getMappedPageFrom_eq he (show 0 + 4 = 4 from rfl) (by omega) h.root_eq rfl

end Lookup

/-! ## Growing the tree -/

/-- Frames that are handed out are whole frames and none of those to avoid, which the new
one then joins. `clean` is what the states have to satisfy for this. -/
structure HandsOutFrames {σ : Type} (allocate4KiBPage : U64 → EStateM Fault σ U64)
    (avoids : σ → Set U64 → Prop) (clean : σ → Prop) : Prop where
  frame : ∀ {t t' : σ} {T : Set U64} {page : U64}, avoids t T →
    allocate4KiBPage 1 t = .ok page t' → clean t' →
      pageFrameSize ∣ page.toNat ∧ page ∉ T ∧ avoids t' (insert page T)
  clean_before : ∀ {t t' : σ} {page : U64}, allocate4KiBPage 1 t = .ok page t' → clean t' → clean t

section Grow

variable {σ : Type} {allocate4KiBPage : U64 → EStateM Fault σ U64} {avoids : σ → Set U64 → Prop}
  {clean : σ → Prop} {s s' : Paging σ} {r : Radix (BitVec 9) U64 U64}
  {root t table page pageSize virt value : U64} {level left depth : Nat} {u : Unit}

/-- The tree is stored, and its tables are avoided. -/
structure Mapped (avoids : σ → Set U64 → Prop) (s : Paging σ) (r : Radix (BitVec 9) U64 U64) :
    Prop where
  directory : Directory s.words s.level4PageTable r
  avoided : avoids s.allocator r.tables

/-- The words differ within the frames of the tables only. -/
def SameOutside (tables : Set U64) (words words' : U64 → U64) : Prop :=
  ∀ a : U64, (∀ t ∈ tables, ¬ (t.toNat ≤ a.toNat ∧ a.toNat < t.toNat + pageFrameSize)) →
    words' a = words a

section SameOutside

variable {tables tables' : Set U64} {words words' words'' : U64 → U64}

theorem SameOutside.refl : SameOutside tables words words := fun _ _ => rfl

/-- What is outside more tables is outside fewer of them. -/
theorem SameOutside.trans (h : SameOutside tables words words')
    (h' : SameOutside tables' words' words'') (hsub : tables ⊆ tables') :
    SameOutside tables' words words'' := fun a ha =>
  (h' a ha).trans (h a fun t ht => ha t (hsub ht))

/-- Outside its table an entry is not written. -/
theorem SameOutside.writeEntry (ht : t ∈ tables) (haligned : pageFrameSize ∣ t.toNat)
    {i : BitVec 9} (h : SameOutside tables words words') :
    SameOutside tables words fun a =>
      if a = entryAddress t (i.setWidth 64) then value else words' a := by
  intro a ha
  dsimp only
  rw [if_neg, h a ha]
  rintro rfl
  exact ha t ht ((entryAddress_mem_frame haligned haligned).mpr rfl)

/-- Outside a table and a new one that it links nothing is written. -/
theorem SameOutside.linkTable (ht : t ∈ tables) (haligned : pageFrameSize ∣ t.toNat)
    {i : BitVec 9} :
    SameOutside (insert page tables) words fun a =>
      if a = entryAddress t (i.setWidth 64) then value
      else if page.toNat ≤ a.toNat ∧ a.toNat < page.toNat + pageFrameSize then 0
      else words a := by
  have hcleared : SameOutside (insert page tables) words fun a =>
      if page.toNat ≤ a.toNat ∧ a.toNat < page.toNat + pageFrameSize then 0 else words a :=
    fun _ ha => if_neg (ha page (Set.mem_insert page tables))
  exact hcleared.writeEntry (Set.mem_insert_of_mem page ht) haligned

end SameOutside

/-- The tree depends on the words in its tables. -/
theorem Directory.congr_words {words words' : U64 → U64} (h : Directory words root r)
    (hsame : ∀ t ∈ r.tables, ∀ i : BitVec 9,
      words' (entryAddress t (i.setWidth 64)) = words (entryAddress t (i.setWidth 64))) :
    Directory words' root r :=
  ⟨⟨fun hp i => (hsame _ ⟨_, hp⟩ i).trans (h.word_eq hp i), h.table_above, h.leaf_above,
    h.exclusive, h.injective⟩, h.root_eq, h.aligned, h.page⟩

/-- A leaf is written. -/
theorem Directory.writeLeaf {words : U64 → U64} (h : Directory words root r)
    (ht : r.table (path virt level) = some t) (hnone : r.table (path virt (level + 1)) = none)
    {pageType : PageSize} (hdepth : level + 1 = pageSizeToDepth pageType)
    (hvalue : pageType ≠ .basePage → Extended value) :
    Directory (fun a => if a = entryAddress t ((levelIndex virt level).setWidth 64) then value
      else words a) root (r.setLeaf (path virt (level + 1)) value) := by
  refine ⟨h.setLeaf ht hnone (if_pos rfl) ?_, h.root_eq, h.aligned, ?_⟩
  · rintro x j ⟨p, hp⟩ hne
    exact if_neg fun heq => hne ((entryAddress_inj (h.aligned hp) (h.aligned ht)).mp heq)
  · intro p e he
    by_cases hp : p = path virt (level + 1)
    · refine ⟨pageType, by rw [hp, length_path, hdepth], fun hbase => ?_⟩
      rw [hp] at he
      change (r.setLeaf (path virt (level + 1)) value).leaf (path virt (level + 1)) = _ at he
      rw [leaf_setLeaf_self, Option.some.injEq] at he
      exact he ▸ hvalue hbase
    · rw [leaf_setLeaf_of_ne hp] at he
      exact h.page he

/-- A table is cleared, and linked where the entry was empty. -/
theorem Directory.writeTable {words : U64 → U64} (h : Directory words root r)
    (ht : r.table (path virt level) = some t) (hnone : r.table (path virt (level + 1)) = none)
    (hleaf : r.leaf (path virt (level + 1)) = none) (hpage : pageFrameSize ∣ page.toNat)
    (hfresh : page ∉ r.tables) :
    Directory (fun a => if a = entryAddress t ((levelIndex virt level).setWidth 64) then
        encodeEntry (.table page)
      else if page.toNat ≤ a.toNat ∧ a.toNat < page.toNat + pageFrameSize then 0
      else words a) root (r.addTable (path virt (level + 1)) page) := by
  have hne : ∀ {x}, x ∈ r.tables → x ≠ page := by
    rintro x hx rfl
    exact hfresh hx
  refine ⟨h.addTable ht hnone hleaf hfresh ?_ (if_pos rfl) ?_, ?_, ?_, ?_⟩
  · intro j
    rw [if_neg fun heq => hne ⟨_, ht⟩ ((entryAddress_inj hpage (h.aligned ht)).mp heq).1.symm,
      if_pos ((entryAddress_mem_frame hpage hpage).mpr rfl)]
    rfl
  · rintro x j ⟨p, hp⟩ hat
    rw [if_neg fun heq => hat ((entryAddress_inj (h.aligned hp) (h.aligned ht)).mp heq),
      if_neg fun hin => hne ⟨p, hp⟩ ((entryAddress_mem_frame hpage (h.aligned hp)).mp hin)]
  · rw [table_addTable_of_ne (by simp [path])]
    exact h.root_eq
  · intro p x hp
    by_cases heq : p = path virt (level + 1)
    · rw [heq, table_addTable_self, Option.some.injEq] at hp
      exact hp ▸ hpage
    · rw [table_addTable_of_ne heq] at hp
      exact h.aligned hp
  · exact h.page

/-- What one level of the inner loop does: it writes the page, finds a table, or links a
cleared one. -/
theorem mapPage_succ (hrun : mapPage allocate4KiBPage virt value (left + 1) pageSize table s =
      .ok u s') :
    let address := entryAddress table (pageTableIndex virt pageSize)
    ∃ s₁, mapPage allocate4KiBPage virt value left
        (pageSize / BitVec.ofNat 64 PageTableFormat.entries)
        (alignDownExp (s₁.words address) pageFrameShift) s₁ = .ok u s' ∧
      (left = 0 ∧ s₁ = { s with words := fun a => if a = address then value else s.words a } ∨
        left ≠ 0 ∧ s.words address ≠ 0 ∧ s₁ = s ∨
        left ≠ 0 ∧ s.words address = 0 ∧ ∃ page t', allocate4KiBPage 1 s.allocator = .ok page t' ∧
          s₁ = ⟨fun a => if a = address then encodeEntry (.table page)
            else if page.toNat ≤ a.toNat ∧ a.toNat < page.toNat + pageFrameSize then 0
            else s.words a, s.level4PageTable, t'⟩) := by
  intro address
  rw [mapPage] at hrun
  by_cases hleft : left = 0
  · simp only [hleft, if_true, bind_eq_ok, writeWord_eq_ok, readWord_eq_ok] at hrun
    obtain ⟨_, _, rfl, _, _, ⟨rfl, rfl⟩, hrest⟩ := hrun
    exact ⟨_, hleft ▸ hrest, .inl ⟨hleft, rfl⟩⟩
  · simp only [hleft, if_false, bind_eq_ok, readWord_eq_ok] at hrun
    obtain ⟨_, _, ⟨rfl, rfl⟩, hrun⟩ := hrun
    by_cases hzero : s.words address = 0
    · simp only [address] at hzero
      simp only [hzero, if_true, bind_eq_ok, getZeroBasePage_eq_ok, writeWord_eq_ok,
        readWord_eq_ok] at hrun
      obtain ⟨page, _, ⟨t', ht', rfl⟩, _, _, rfl, _, _, ⟨rfl, rfl⟩, hrest⟩ := hrun
      exact ⟨_, hrest, .inr (.inr ⟨hleft, hzero, page, t', ht', rfl⟩)⟩
    · simp only [address] at hzero
      simp only [hzero, if_false, bind_eq_ok, readWord_eq_ok] at hrun
      obtain ⟨_, _, ⟨rfl, rfl⟩, hrest⟩ := hrun
      exact ⟨s, hrest, .inr (.inl ⟨hleft, hzero, rfl⟩)⟩

/-- A clean state was clean before. -/
theorem HandsOutFrames.clean_mapPage (hout : HandsOutFrames allocate4KiBPage avoids clean)
    (hrun : mapPage allocate4KiBPage virt value left pageSize table s = .ok u s')
    (hclean : clean s'.allocator) : clean s.allocator := by
  induction left generalizing pageSize table s with
  | zero =>
    obtain ⟨-, rfl⟩ := pure_eq_ok.mp hrun
    exact hclean
  | succ left ih =>
    obtain ⟨s₁, hrest, ⟨-, rfl⟩ | ⟨-, -, rfl⟩ | ⟨-, -, page, t', ht', rfl⟩⟩ := mapPage_succ hrun
    · have hwritten := ih hrest
      exact hwritten
    · exact ih hrest
    · exact hout.clean_before ht' (ih hrest)

/-- The inner loop grows the tree by the page, when nothing is mapped above or below it, and
writes in its tables only. -/
theorem Mapped.mapPage (hout : HandsOutFrames allocate4KiBPage avoids clean)
    {pageType : PageSize} (hvalue : pageType ≠ .basePage → Extended value)
    (hlevels : level + left = pageSizeToDepth pageType) (hleft : 0 < left)
    (h : Mapped avoids s r) (ht : r.table (path virt level) = some t)
    (hfree : ∀ l < pageSizeToDepth pageType, r.leaf (path virt l) = none)
    (hnone : r.table (path virt (pageSizeToDepth pageType)) = none)
    (hrun : mapPage allocate4KiBPage virt value left (pathSize (level + 1)) t s = .ok u s')
    (hclean : clean s'.allocator) :
    ∃ r', Grown r r' (path virt (pageSizeToDepth pageType)) value ∧ Mapped avoids s' r' ∧
      s'.level4PageTable = s.level4PageTable ∧ SameOutside r'.tables s.words s'.words := by
  induction left generalizing level t s r with
  | zero => exact absurd hleft (lt_irrefl 0)
  | succ left ih =>
    have hle := pageSizeToDepth_le pageType
    have hmem : t ∈ r.tables := ⟨_, ht⟩
    have haligned := h.directory.aligned ht
    obtain ⟨s₁, hrest, hstep⟩ := mapPage_succ hrun
    rw [pageTableIndex_eq (by omega)] at hrest hstep
    rcases hstep with ⟨rfl, rfl⟩ | ⟨hpos, hentry, rfl⟩ | ⟨hpos, hentry, page, t', hpage, rfl⟩
    · -- The level of the page itself.
      obtain ⟨-, rfl⟩ := pure_eq_ok.mp hrest
      rw [Nat.zero_add] at hlevels
      refine ⟨r.setLeaf (path virt (pageSizeToDepth pageType)) value,
        ⟨leaf_setLeaf_self, leaf_setLeaf_of_ne, id, .inl⟩, ⟨?_, h.avoided⟩, rfl,
        SameOutside.refl.writeEntry hmem haligned⟩
      rw [← hlevels] at hnone ⊢
      exact h.directory.writeLeaf ht hnone hlevels hvalue
    · -- The table of the next level is there.
      have hlt : level + 1 < pageSizeToDepth pageType := by omega
      have hsome := (h.directory.entry_ne_zero_iff ht (hfree _ hlt)).mp hentry
      obtain ⟨t', ht', hword⟩ := h.directory.next_table ht hsome
      rw [hword, alignDownExp_encodeEntry_table (h.directory.aligned ht'),
        pathSize_div (by omega)] at hrest
      exact ih (by omega) (by omega) h ht' hfree hnone hrest
    · -- It is missing, and linked.
      have hlt : level + 1 < pageSizeToDepth pageType := by omega
      have hne : path virt (level + 1) ≠ path virt (pageSizeToDepth pageType) := path_ne hlt.ne
      have hno : r.table (path virt (level + 1)) = none := by
        rw [← Option.not_isSome_iff_eq_none,
          ← h.directory.entry_ne_zero_iff ht (hfree _ hlt)]
        exact not_not.mpr hentry
      obtain ⟨hpageAligned, hfresh, havoids⟩ :=
        hout.frame h.avoided hpage (hout.clean_mapPage hrest hclean)
      simp only [if_true] at hrest
      rw [alignDownExp_encodeEntry_table hpageAligned, pathSize_div (by omega)] at hrest
      have htables := tables_addTable (a := page) hno
      obtain ⟨r', hgrown, hmapped, hroot, hsame⟩ := ih (by omega) (by omega)
        (r := r.addTable (path virt (level + 1)) page)
        ⟨h.directory.writeTable ht hno (hfree _ hlt) hpageAligned hfresh, by rwa [htables]⟩
        table_addTable_self hfree (by rwa [table_addTable_of_ne hne.symm]) hrest
      have hsub : insert page r.tables ⊆ r'.tables := by
        rw [← htables]
        exact fun _ hx => hx.imp fun _ => hgrown.kept
      exact ⟨r', hgrown.of_addTable hno (path_suffix hlt.le) hne, hmapped, hroot,
        (SameOutside.linkTable hmem haligned).trans hsame hsub⟩

end Grow

end Homegrown.Memory
