import Mathlib.Data.List.Infix
import Mathlib.Data.Set.Insert
import Mathlib.Logic.Function.Basic

/-!
# Radix trees in memory

A radix tree has tables and leaves. Both are named by their path from the root, with the
deepest index first, so that the parent of `i :: p` is `p` and the paths above `p` are the
suffixes of `p`. In memory a table is an array of words: each word is empty, the address
of the next table, or a leaf. `Radix.Stores` relates a tree to a memory, and one lemma for
each write says which tree is stored afterwards.
-/

namespace Homegrown

/-- The address of the table and the leaf at a path, where there is one. -/
structure Radix (ι α β : Type) where
  table : List ι → Option α
  leaf : List ι → Option β

/-- What a word of a table stands for. -/
inductive Slot (α β : Type) where
  | empty
  | table (address : α)
  | leaf (value : β)

namespace Radix

variable {ι α β ω : Type}

/-- The word that the parent of a path holds for it. -/
def slot (r : Radix ι α β) (p : List ι) : Slot α β :=
  match r.leaf p, r.table p with
  | some b, _ => .leaf b
  | none, some a => .table a
  | none, none => .empty

/-- The addresses of the tables. -/
def tables (r : Radix ι α β) : Set α := { a | ∃ p, r.table p = some a }

/-- The memory holds the tree: every table and every leaf has a table above it, no path
has both, and no address is that of two tables. -/
structure Stores (encode : Slot α β → ω) (word : α → ι → ω) (r : Radix ι α β) : Prop where
  word_eq : ∀ {p a}, r.table p = some a → ∀ i, word a i = encode (r.slot (i :: p))
  table_above : ∀ {i p}, (r.table (i :: p)).isSome → (r.table p).isSome
  leaf_above : ∀ {i p}, (r.leaf (i :: p)).isSome → (r.table p).isSome
  exclusive : ∀ {p}, (r.table p).isSome → r.leaf p = none
  injective : ∀ {p q a}, r.table p = some a → r.table q = some a → p = q

section Slot

variable {r : Radix ι α β} {p : List ι}

/-- The slot of a leaf. -/
theorem slot_of_leaf {b : β} (h : r.leaf p = some b) : r.slot p = .leaf b := by
  rw [slot, h]

/-- The slot of a table. -/
theorem slot_of_table {a : α} (h : r.leaf p = none) (ha : r.table p = some a) :
    r.slot p = .table a := by
  rw [slot, h, ha]

/-- The slot where nothing is. -/
theorem slot_of_none (h : r.leaf p = none) (ha : r.table p = none) : r.slot p = .empty := by
  rw [slot, h, ha]

/-- The word depends on what is at the path. -/
theorem slot_congr {r' : Radix ι α β} (hleaf : r'.leaf p = r.leaf p)
    (htable : r'.table p = r.table p) : r'.slot p = r.slot p := by
  rw [slot, slot, hleaf, htable]

end Slot

/-! ## Above a table or a leaf -/

section Above

variable {encode : Slot α β → ω} {word : α → ι → ω} {r : Radix ι α β} {p q : List ι}

/-- Above a table there are tables. -/
theorem Stores.table_of_suffix (h : r.Stores encode word) (hq : (r.table q).isSome)
    (hp : p <:+ q) : (r.table p).isSome := by
  obtain ⟨l, rfl⟩ := hp
  induction l with
  | nil => exact hq
  | cons i l ih => exact ih (h.table_above hq)

/-- All that lies strictly above a leaf is tables. -/
theorem Stores.table_of_leaf (h : r.Stores encode word) (hq : (r.leaf q).isSome) (hp : p <:+ q)
    (hne : p ≠ q) : (r.table p).isSome := by
  obtain ⟨l, rfl⟩ := hp
  cases l with
  | nil => exact absurd rfl hne
  | cons i l => exact h.table_of_suffix (h.leaf_above hq) ⟨l, rfl⟩

end Above

/-! ## Writes -/

section Writes

variable [DecidableEq ι]

/-- The tree with a table at a path. -/
def addTable (r : Radix ι α β) (p : List ι) (a : α) : Radix ι α β :=
  { r with table := Function.update r.table p (some a) }

/-- The tree with a leaf at a path. -/
def setLeaf (r : Radix ι α β) (p : List ι) (b : β) : Radix ι α β :=
  { r with leaf := Function.update r.leaf p (some b) }

variable {encode : Slot α β → ω} {word word' : α → ι → ω} {r : Radix ι α β} {p q : List ι}
  {i : ι} {a t : α} {b : β}

/-- The table that was added is found. -/
@[simp] theorem table_addTable_self : (r.addTable p a).table p = some a := by
  simp only [addTable, Function.update_self]

/-- The other tables stay. -/
theorem table_addTable_of_ne (h : q ≠ p) : (r.addTable p a).table q = r.table q := by
  simp only [addTable, ne_eq, h, not_false_eq_true, Function.update_of_ne]

@[simp] theorem leaf_addTable : (r.addTable p a).leaf q = r.leaf q := rfl

/-- The leaf that was set is found. -/
@[simp] theorem leaf_setLeaf_self : (r.setLeaf p b).leaf p = some b := by
  simp only [setLeaf, Function.update_self]

/-- The other leaves stay. -/
theorem leaf_setLeaf_of_ne (h : q ≠ p) : (r.setLeaf p b).leaf q = r.leaf q := by
  simp only [setLeaf, ne_eq, h, not_false_eq_true, Function.update_of_ne]

@[simp] theorem table_setLeaf : (r.setLeaf p b).table q = r.table q := rfl

/-- The new table is one more address in use. -/
theorem tables_addTable (h : r.table p = none) : (r.addTable p a).tables = insert a r.tables := by
  ext x
  simp only [tables, Set.mem_ofPred_eq, Set.mem_insert_iff]
  constructor
  · rintro ⟨q, hq⟩
    by_cases hqp : q = p
    · rw [hqp, table_addTable_self, Option.some.injEq] at hq
      exact .inl hq.symm
    · rw [table_addTable_of_ne hqp] at hq
      exact .inr ⟨q, hq⟩
  · rintro (rfl | ⟨q, hq⟩)
    · exact ⟨p, table_addTable_self⟩
    · refine ⟨q, ?_⟩
      rw [table_addTable_of_ne, hq]
      rintro rfl
      rw [h] at hq
      cases hq

/-- A table that was cleared and linked at an empty word. -/
theorem Stores.addTable (h : r.Stores encode word) (hp : r.table p = some t)
    (hempty : r.table (i :: p) = none) (hleaf : r.leaf (i :: p) = none) (ha : a ∉ r.tables)
    (hclear : ∀ j, word' a j = encode .empty) (hlink : word' t i = encode (.table a))
    (hframe : ∀ x j, x ∈ r.tables → ¬ (x = t ∧ j = i) → word' x j = word x j) :
    (r.addTable (i :: p) a).Stores encode word' := by
  have hbelow : ∀ j, r.table (j :: i :: p) = none ∧ r.leaf (j :: i :: p) = none := by
    intro j
    constructor
    · by_contra hne
      have := h.table_above (Option.isSome_iff_ne_none.mpr hne)
      simp [hempty] at this
    · by_contra hne
      have := h.leaf_above (Option.isSome_iff_ne_none.mpr hne)
      simp [hempty] at this
  have hold : ∀ {q x}, (r.addTable (i :: p) a).table q = some x → q ≠ i :: p →
      r.table q = some x := by
    intro q x hq hne
    rwa [table_addTable_of_ne hne] at hq
  have hkeep : ∀ {q}, (r.table q).isSome → ((r.addTable (i :: p) a).table q).isSome := by
    intro q hq
    by_cases hqp : q = i :: p
    · rw [hqp, table_addTable_self]
      rfl
    · rwa [table_addTable_of_ne hqp]
  refine ⟨?_, ?_, fun hq => hkeep (h.leaf_above hq), ?_, ?_⟩
  · intro q x hq j
    by_cases hqp : q = i :: p
    · subst hqp
      rw [table_addTable_self, Option.some.injEq] at hq
      obtain ⟨htable, hnone⟩ := hbelow j
      rw [← hq, hclear, slot_of_none (by rwa [leaf_addTable])
        (by rwa [table_addTable_of_ne (by simp)])]
    · have hx := hold hq hqp
      by_cases hat : x = t ∧ j = i
      · obtain ⟨rfl, rfl⟩ := hat
        rw [h.injective hx hp, hlink,
          slot_of_table (by rwa [leaf_addTable]) table_addTable_self]
      · rw [hframe x j ⟨q, hx⟩ hat, h.word_eq hx j]
        congr 1
        refine (slot_congr leaf_addTable (table_addTable_of_ne ?_)).symm
        intro heq
        obtain ⟨rfl, rfl⟩ := List.cons.inj heq
        exact hat ⟨Option.some.inj (hx.symm.trans hp), rfl⟩
  · intro j q hq
    by_cases hjq : j :: q = i :: p
    · obtain ⟨-, rfl⟩ := List.cons.inj hjq
      exact hkeep (by rw [hp]; rfl)
    · rw [table_addTable_of_ne hjq] at hq
      exact hkeep (h.table_above hq)
  · intro q hq
    by_cases hqp : q = i :: p
    · rw [hqp, leaf_addTable, hleaf]
    · rw [table_addTable_of_ne hqp] at hq
      exact h.exclusive hq
  · intro q q' x hq hq'
    by_cases hqp : q = i :: p <;> by_cases hqp' : q' = i :: p
    · rw [hqp, hqp']
    · rw [hqp, table_addTable_self, Option.some.injEq] at hq
      exact absurd ⟨q', hq ▸ hold hq' hqp'⟩ ha
    · rw [hqp', table_addTable_self, Option.some.injEq] at hq'
      exact absurd ⟨q, hq' ▸ hold hq hqp⟩ ha
    · exact h.injective (hold hq hqp) (hold hq' hqp')

/-- A leaf that was written where no table is linked. -/
theorem Stores.setLeaf (h : r.Stores encode word) (hp : r.table p = some t)
    (hempty : r.table (i :: p) = none) (hlink : word' t i = encode (.leaf b))
    (hframe : ∀ x j, x ∈ r.tables → ¬ (x = t ∧ j = i) → word' x j = word x j) :
    (r.setLeaf (i :: p) b).Stores encode word' := by
  refine ⟨?_, fun hq => h.table_above hq, ?_, ?_, fun hq hq' => h.injective hq hq'⟩
  · intro q x hq j
    rw [table_setLeaf] at hq
    by_cases hat : x = t ∧ j = i
    · obtain ⟨rfl, rfl⟩ := hat
      rw [h.injective hq hp, hlink, slot_of_leaf leaf_setLeaf_self]
    · rw [hframe x j ⟨q, hq⟩ hat, h.word_eq hq j]
      congr 1
      refine (slot_congr (leaf_setLeaf_of_ne ?_) table_setLeaf).symm
      intro heq
      obtain ⟨rfl, rfl⟩ := List.cons.inj heq
      exact hat ⟨Option.some.inj (hq.symm.trans hp), rfl⟩
  · intro j q hq
    by_cases hjq : j :: q = i :: p
    · obtain ⟨-, rfl⟩ := List.cons.inj hjq
      rw [table_setLeaf, hp]
      rfl
    · rw [leaf_setLeaf_of_ne hjq] at hq
      exact h.leaf_above hq
  · intro q hq
    rw [table_setLeaf] at hq
    rw [leaf_setLeaf_of_ne]
    · exact h.exclusive hq
    · rintro rfl
      rw [hempty] at hq
      cases hq

end Writes

/-! ## Growth -/

/-- The tree has one more leaf, and tables above it. -/
structure Grown (r r' : Radix ι α β) (q : List ι) (b : β) : Prop where
  leaf_self : r'.leaf q = some b
  leaf_of_ne : ∀ {p}, p ≠ q → r'.leaf p = r.leaf p
  kept : ∀ {p a}, r.table p = some a → r'.table p = some a
  above : ∀ {p}, (r'.table p).isSome → (r.table p).isSome ∨ p <:+ q ∧ p ≠ q

/-- Every table but the root's has a leaf below. -/
def Pruned (r : Radix ι α β) : Prop :=
  ∀ p, (r.table p).isSome → p = [] ∨ ∃ q, (r.leaf q).isSome ∧ p <:+ q ∧ p ≠ q

/-- Neither path is above the other. -/
def Apart (p q : List ι) : Prop := ¬ p <:+ q ∧ ¬ q <:+ p

section Growth

variable {encode : Slot α β → ω} {word : α → ι → ω} {r r' : Radix ι α β} {p q : List ι} {b : β}

/-- Paths that are apart are different. -/
theorem Apart.ne (h : Apart p q) : p ≠ q := by
  rintro rfl
  exact h.1 List.suffix_rfl

/-- Being apart is symmetric. -/
theorem Apart.symm (h : Apart p q) : Apart q p := ⟨h.2, h.1⟩

/-- A leaf is kept where the new one is elsewhere. -/
theorem Grown.leaf_kept (h : Grown r r' q b) {x : β} (hp : r.leaf p = some x) (hne : p ≠ q) :
    r'.leaf p = some x := (h.leaf_of_ne hne).trans hp

/-- The leaves are those from before, and the new one. -/
theorem Grown.leaf_cases (h : Grown r r' q b) {x : β} (hp : r'.leaf p = some x) :
    p = q ∧ x = b ∨ r.leaf p = some x := by
  by_cases hpq : p = q
  · rw [hpq, h.leaf_self, Option.some.injEq] at hp
    exact .inl ⟨hpq, hp.symm⟩
  · rw [h.leaf_of_ne hpq] at hp
    exact .inr hp

/-- A table that was added above the leaf first is part of the growth. -/
theorem Grown.of_addTable [DecidableEq ι] {a : α} (h : Grown (r.addTable p a) r' q b)
    (hnone : r.table p = none) (hpq : p <:+ q) (hne : p ≠ q) : Grown r r' q b := by
  refine ⟨h.leaf_self, h.leaf_of_ne, fun {x c} hx => h.kept ?_, fun {x} hx => ?_⟩
  · rw [table_addTable_of_ne]
    · exact hx
    · rintro rfl
      rw [hnone] at hx
      cases hx
  · rcases h.above hx with hold | hnew
    · by_cases heq : x = p
      · exact .inr (heq ▸ ⟨hpq, hne⟩)
      · rw [table_addTable_of_ne heq] at hold
        exact .inl hold
    · exact .inr hnew

/-- Growth away from all leaves leaves no table without one. -/
theorem Grown.pruned (h : Grown r r' q b) (hr : r.Pruned) : r'.Pruned := by
  intro p hp
  rcases h.above hp with hold | ⟨hpq, hne⟩
  · rcases hr p hold with hroot | ⟨x, hx, hpx, hne⟩
    · exact .inl hroot
    · refine .inr ⟨x, ?_, hpx, hne⟩
      by_cases hxq : x = q
      · rw [hxq, h.leaf_self]
        rfl
      · rwa [h.leaf_of_ne hxq]
  · exact .inr ⟨q, by rw [h.leaf_self]; rfl, hpq, hne⟩

/-- Apart from all leaves there is no leaf above, and no table. -/
theorem Pruned.table_eq_none (hr : r.Pruned) (hq : q ≠ [])
    (hapart : ∀ p, (r.leaf p).isSome → Apart p q) : r.table q = none := by
  by_contra hne
  rcases hr q (Option.isSome_iff_ne_none.mpr hne) with hroot | ⟨p, hp, hqp, -⟩
  · exact hq hroot
  · exact (hapart p hp).2 hqp

/-- The tree has more leaves, and keeps its tables. -/
structure GrownBy (r r' : Radix ι α β) (new : List ι → β → Prop) : Prop where
  leaf_iff : ∀ p b, r'.leaf p = some b ↔ r.leaf p = some b ∨ new p b
  kept : ∀ {p a}, r.table p = some a → r'.table p = some a

/-- A tree has grown by nothing. -/
theorem GrownBy.refl (r : Radix ι α β) : GrownBy r r fun _ _ => False :=
  ⟨fun _ _ => (or_iff_left id).symm, id⟩

/-- What was new in either step is new. -/
theorem GrownBy.trans {r'' : Radix ι α β} {new new' : List ι → β → Prop}
    (h : GrownBy r r' new) (h' : GrownBy r' r'' new') :
    GrownBy r r'' fun p b => new p b ∨ new' p b :=
  ⟨fun p b => by rw [h'.leaf_iff, h.leaf_iff, or_assoc], fun hp => h'.kept (h.kept hp)⟩

/-- Only which leaves are new matters. -/
theorem GrownBy.congr {new new' : List ι → β → Prop} (h : GrownBy r r' new)
    (heq : ∀ p b, new p b ↔ new' p b) : GrownBy r r' new' :=
  ⟨fun p b => by rw [h.leaf_iff, heq], h.kept⟩

/-- One leaf, where there was none. -/
theorem Grown.grownBy (h : Grown r r' q b) (hnone : r.leaf q = none) :
    GrownBy r r' fun p x => p = q ∧ x = b := by
  refine ⟨fun p x => ⟨fun hp => (h.leaf_cases hp).symm, ?_⟩, h.kept⟩
  rintro (hp | ⟨rfl, rfl⟩)
  · refine h.leaf_kept hp ?_
    rintro rfl
    rw [hnone] at hp
    cases hp
  · exact h.leaf_self

/-- Where all leaves are apart from a path, there is none above it. -/
theorem leaf_eq_none_of_apart (hapart : ∀ p, (r.leaf p).isSome → Apart p q) (hp : p <:+ q) :
    r.leaf p = none := by
  by_contra hne
  exact (hapart p (Option.isSome_iff_ne_none.mpr hne)).1 hp

end Growth

end Radix

end Homegrown
