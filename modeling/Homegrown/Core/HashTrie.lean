import Mathlib.Logic.Function.Basic
import Mathlib.Data.Sum.Basic
import Mathlib.Data.List.Basic

/-!
# Hash tries

A node of a hash trie holds a key and has a child for each digit. A search follows the
digits of the hash of its key until it meets the key or an empty place; an insertion puts
a node into that place. Nothing is asked of the hash: it may run out of digits, and keys
may share all of them. `find?_fill` and `find?_fill_of_ne` say that an insertion adds
its key and changes no other search.
-/

namespace Homegrown

/-- A trie with a child for every digit. -/
inductive HashTrie (D K V : Type) where
  | empty
  | node (key : K) (value : V) (child : D → HashTrie D K V)

namespace HashTrie

/-- A node without children. -/
def leaf {D K V : Type} (key : K) (value : V) : HashTrie D K V := node key value fun _ => empty

variable {D H K V : Type} [DecidableEq K]

/-- The value of a key on the path of a hash. -/
def find? (digit : H → D) (next : H → H) (key : K) : H → HashTrie D K V → Option V
  | _, empty => none
  | hash, node key' value child =>
    if key = key' then some value else find? digit next key (next hash) (child (digit hash))

section Search

variable {digit : H → D} {next : H → H} {key key' : K} {hash hash' : H} {value : V}

/-- Nothing is found in an empty trie. -/
@[simp] theorem find?_empty : find? digit next key hash (empty : HashTrie D K V) = none := rfl

/-- The key of a node is found there. -/
theorem find?_node_self {child : D → HashTrie D K V} :
    find? digit next key hash (node key value child) = some value := if_pos rfl

/-- Another key is looked for below the node. -/
theorem find?_node_of_ne {child : D → HashTrie D K V} (h : key' ≠ key) :
    find? digit next key' hash (node key value child) =
      find? digit next key' (next hash) (child (digit hash)) := if_neg h

variable [DecidableEq D]

/-- The value of a key on the path of a hash, or the empty place where the path ends, as
the function that fills it. -/
def walk (digit : H → D) (next : H → H) (key : K) :
    H → HashTrie D K V → V ⊕ (HashTrie D K V → HashTrie D K V)
  | _, empty => .inr id
  | hash, node key' value child =>
    if key = key' then .inl value
    else match walk digit next key (next hash) (child (digit hash)) with
      | .inl found => .inl found
      | .inr fill =>
        .inr fun new => node key' value (Function.update child (digit hash) (fill new))

variable {t : HashTrie D K V} {fill : HashTrie D K V → HashTrie D K V}

/-- A walk finds what a search finds. -/
theorem find?_of_walk_inl (h : walk digit next key hash t = .inl value) :
    find? digit next key hash t = some value := by
  induction t generalizing hash with
  | empty => cases h
  | node key' value' child ih =>
    by_cases hkey : key = key'
    · rw [walk, if_pos hkey, Sum.inl.injEq] at h
      rw [find?, if_pos hkey, h]
    · rw [walk, if_neg hkey] at h
      rw [find?, if_neg hkey]
      apply ih
      cases hwalk : walk digit next key (next hash) (child (digit hash)) with
      | inl found =>
        rw [hwalk] at h
        exact h
      | inr fill =>
        rw [hwalk] at h
        cases h

/-- How a walk ends at an empty place: in the empty trie, or below a node with another key. -/
theorem walk_eq_inr :
    walk digit next key hash t = .inr fill ↔ match t with
      | empty => id = fill
      | node key' value child => key ≠ key' ∧ ∃ below,
          walk digit next key (next hash) (child (digit hash)) = .inr below ∧
          (fun new => node key' value (Function.update child (digit hash) (below new))) = fill := by
  cases t with
  | empty => rw [walk, Sum.inr.injEq]
  | node key' value child =>
    by_cases hkey : key = key'
    · simp [walk, hkey]
    · cases hwalk : walk digit next key (next hash) (child (digit hash)) <;>
        simp [walk, hkey, hwalk]

/-- A walk that ends at an empty place is a search without success. -/
theorem find?_of_walk_inr (h : walk digit next key hash t = .inr fill) :
    find? digit next key hash t = none := by
  induction t generalizing hash fill with
  | empty => rfl
  | node key' value child ih =>
    obtain ⟨hkey, below, hbelow, -⟩ := walk_eq_inr.mp h
    rw [find?_node_of_ne hkey]
    exact ih _ hbelow

/-- A key put into the place where its walk ends is found. -/
theorem find?_fill (h : walk digit next key hash t = .inr fill) :
    find? digit next key hash (fill (leaf key value)) = some value := by
  induction t generalizing hash fill with
  | empty =>
    obtain rfl := walk_eq_inr.mp h
    exact find?_node_self
  | node key' value' child ih =>
    obtain ⟨hkey, below, hbelow, rfl⟩ := walk_eq_inr.mp h
    rw [find?_node_of_ne hkey, Function.update_self]
    exact ih _ hbelow

/-- A key put into the place where its walk ends changes no search for another key. -/
theorem find?_fill_of_ne (h : walk digit next key hash t = .inr fill) (hne : key' ≠ key) :
    find? digit next key' hash' (fill (leaf key value)) = find? digit next key' hash' t := by
  induction t generalizing hash hash' fill with
  | empty =>
    obtain rfl := walk_eq_inr.mp h
    exact find?_node_of_ne hne
  | node key'' value'' child ih =>
    obtain ⟨-, below, hbelow, rfl⟩ := walk_eq_inr.mp h
    by_cases hkey : key' = key''
    · rw [hkey, find?_node_self, find?_node_self]
    · rw [find?_node_of_ne hkey, find?_node_of_ne hkey]
      by_cases hdigit : digit hash' = digit hash
      · rw [hdigit, Function.update_self]
        exact ih _ hbelow
      · rw [Function.update_of_ne hdigit]

end Search

/-! ## The keys of a trie -/

/-- The keys in the order of a walk over all nodes, each before its children. -/
def keys (digits : List D) : HashTrie D K V → List K
  | empty => []
  | node key _ child => key :: digits.flatMap fun d => keys digits (child d)

section Keys

variable {digits : List D} {key : K}

omit [DecidableEq K] in
/-- A list that grows by a key at one digit grows by that key. -/
theorem flatMap_perm_cons {f g : D → List K} {d : D} (hnodup : digits.Nodup) (hd : d ∈ digits)
    (hgrow : (g d).Perm (key :: f d)) (hsame : ∀ d' ≠ d, g d' = f d') :
    (digits.flatMap g).Perm (key :: digits.flatMap f) := by
  induction digits with
  | nil => exact (List.not_mem_nil hd).elim
  | cons first digits ih =>
    obtain ⟨hfirst, hnodup⟩ := List.nodup_cons.mp hnodup
    rw [List.flatMap_cons, List.flatMap_cons]
    by_cases heq : first = d
    · subst heq
      have hrest : digits.flatMap g = digits.flatMap f :=
        List.flatMap_congr fun d' hd' => hsame d' (ne_of_mem_of_not_mem hd' hfirst)
      rw [hrest]
      exact hgrow.append_right _
    · rw [hsame first heq]
      have hrest := ih hnodup (List.mem_of_ne_of_mem (Ne.symm heq) hd)
      exact (hrest.append_left _).trans List.perm_middle

variable [DecidableEq D] {digit : H → D} {next : H → H} {hash : H} {value : V}
  {t : HashTrie D K V} {fill : HashTrie D K V → HashTrie D K V}

/-- A key put into the place where its walk ends is one more key. -/
theorem keys_fill (hnodup : digits.Nodup) (hall : ∀ d, d ∈ digits)
    (h : walk digit next key hash t = .inr fill) :
    ((fill (leaf key value)).keys digits).Perm (key :: t.keys digits) := by
  induction t generalizing hash fill with
  | empty =>
    obtain rfl := walk_eq_inr.mp h
    simp [leaf, keys]
  | node key' value' child ih =>
    obtain ⟨-, below, hbelow, rfl⟩ := walk_eq_inr.mp h
    have hgrow := ih _ hbelow
    have hchildren := flatMap_perm_cons (f := fun d => keys digits (child d))
      (g := fun d => keys digits (Function.update child (digit hash) (below (leaf key value)) d))
      hnodup (hall (digit hash)) (by simpa only [Function.update_self] using hgrow)
      fun d' hd' => by simp only [Function.update_of_ne hd']
    exact (hchildren.cons key').trans (List.Perm.swap ..)

end Keys

end HashTrie

end Homegrown
