import Homegrown.Core.Loop
import Homegrown.Shared.Text.Search

/-!
# Creating the directories of a path

`createPath` ends its copy of a path at one slash after the other and makes each directory.
It keeps the place of the slash in an unsigned variable, and goes on while that is positive:
past the last slash it writes at the greatest address, and then starts over. Only a slash at
the very start ends it (`createPath_creates_iff`).
-/

namespace Homegrown.Posix

/-- `/`. -/
def slash : U8 := 0x2F

/-- The copy of the path, the directories that `mkdir` was called for, and the places that
were written to in the copy. -/
structure PathCopy where
  dirPath : List U8
  made : List (List U8)
  written : List U64
  deriving DecidableEq, Repr

/-- The bound on rounds given to the model ran out. -/
inductive PathFault where
  | outOfFuel
  deriving DecidableEq, Repr

/-- Programs on the copy. -/
abbrev PathProgram := EStateM PathFault PathCopy

/-- `dirPath[i] = byte`. A place outside the copy is noted like any other, and the copy keeps
its bytes. -/
def write (i : U64) (byte : U8) : PathProgram Unit :=
  modify fun c => { c with dirPath := c.dirPath.set i.toNat byte, written := c.written ++ [i] }

/-- `mkdir`, for the string up to its first zero byte. -/
def mkdir : PathProgram Unit :=
  modify fun c => { c with made := c.made ++ [c.dirPath.takeWhile (· ≠ 0)] }

/-- A round of the loop in `createPath`. -/
def createRound (fileLocation : ByteString) (slashIndex : U64) : PathProgram (U64 ⊕ Unit) :=
  if 0 < slashIndex then do
    write slashIndex 0
    mkdir
    write slashIndex slash
    let currentIndex := slashIndex + 1
    return .inl (firstOccurenceOfFrom fileLocation slash currentIndex)
  else
    return .inr ()

/-- The copy of a path, with a zero byte behind it. -/
def PathCopy.ofPath (fileLocation : ByteString) : PathCopy := ⟨fileLocation.buf ++ [0], [], []⟩

/-- `createPath`. -/
def createPath (rounds : Nat) (fileLocation : ByteString) : PathProgram Unit := do
  let slashIndex := firstOccurenceOfFrom fileLocation slash 0
  -- The index is unsigned, so this test never fails.
  if 0 ≤ slashIndex then
    set (PathCopy.ofPath fileLocation)
    loop .outOfFuel (createRound fileLocation) rounds slashIndex

/-- The prefixes that end just before a slash and are not empty, from the shortest on. -/
def parents (fileLocation : ByteString) : List (List U8) :=
  ((List.range fileLocation.buf.length).filter fun i =>
    0 < i ∧ fileLocation.buf[i]? = some slash).map fun i => fileLocation.buf.take i

/-- `createPath` ends, has made the parents one after the other, and has written within its
copy only. -/
def Creates (fileLocation : ByteString) : Prop :=
  ∃ rounds, ReturnsWith (createPath rounds fileLocation ⟨[], [], []⟩) fun _ c =>
    c.made = parents fileLocation ∧ ∀ i ∈ c.written, i.toNat < fileLocation.buf.length + 1

section Create

variable {fileLocation : ByteString} {rest : List U8}

/-- A search finds the start only if there is a slash. -/
theorem firstOccurenceOfFrom_ne_zero (h : fileLocation.buf.head? ≠ some slash) (start : U64) :
    firstOccurenceOfFrom fileLocation slash start ≠ 0 := by
  intro hzero
  rcases firstOccurenceOfFrom_spec fileLocation slash start with
    ⟨i, -, hi, -, hresult⟩ | ⟨-, hresult⟩
  · rw [hzero] at hresult
    subst hresult
    rw [List.head?_eq_getElem?] at h
    exact h hi
  · rw [hzero] at hresult
    revert hresult
    decide

/-- Without a slash at its start, a path keeps the loop going. -/
theorem createPath_exhausts (h : fileLocation.buf.head? ≠ some slash) (rounds : Nat)
    (c : PathCopy) : ∃ c', createPath rounds fileLocation c = .error .outOfFuel c' := by
  have hround : ∀ slashIndex (s : PathCopy), slashIndex ≠ 0 →
      ReturnsWith (createRound fileLocation slashIndex s) fun r _ =>
        ∃ next, r = .inl next ∧ next ≠ 0 := by
    intro slashIndex s hne
    have hpos : 0 < slashIndex := BitVec.toNat_pos_of_ne_zero hne
    rw [createRound, if_pos hpos]
    exact ⟨_, _, rfl, _, rfl, firstOccurenceOfFrom_ne_zero h _⟩
  obtain ⟨c', hloop⟩ := loop_exhausts (fun slashIndex _ => slashIndex ≠ 0) hround
    (a := firstOccurenceOfFrom fileLocation slash 0) (s := .ofPath fileLocation)
    (firstOccurenceOfFrom_ne_zero h 0) rounds
  exact ⟨c', hloop⟩

/-- A slash at the start ends the loop before it makes a directory. -/
theorem createPath_of_slash (h : fileLocation.buf.head? = some slash) (rounds : Nat)
    (c : PathCopy) : createPath (rounds + 1) fileLocation c = .ok () (.ofPath fileLocation) := by
  have hzero : firstOccurenceOfFrom fileLocation slash 0 = 0 := by
    rw [List.head?_eq_getElem?] at h
    rcases firstOccurenceOfFrom_spec fileLocation slash 0 with
      ⟨i, -, -, hfirst, hresult⟩ | ⟨hnone, -⟩
    · rcases Nat.eq_zero_or_pos i with rfl | hpos
      · exact BitVec.eq_of_toNat_eq hresult
      · exact absurd h (hfirst 0 (Nat.zero_le _) hpos)
    · exact absurd h (hnone 0 (Nat.zero_le _))
  rw [createPath, hzero]
  rfl

theorem parents_cons (h : fileLocation.buf = slash :: rest) :
    parents fileLocation = [] ↔ slash ∉ rest := by
  rw [parents, List.map_eq_nil_iff, List.filter_eq_nil_iff]
  constructor
  · intro hnone hmem
    obtain ⟨i, hi⟩ := List.mem_iff_getElem?.mp hmem
    have hlt : i < rest.length := by
      by_contra hge
      rw [List.getElem?_eq_none (not_lt.mp hge)] at hi
      cases hi
    apply hnone (i + 1)
    · rw [List.mem_range, h, List.length_cons]
      omega
    · rw [h, List.getElem?_cons_succ, hi]
      simp
  · intro hnot i _ hi
    rw [decide_eq_true_iff] at hi
    obtain ⟨hpos, hslash⟩ := hi
    obtain ⟨k, rfl⟩ := Nat.exists_eq_add_of_lt hpos
    rw [h, Nat.zero_add, List.getElem?_cons_succ] at hslash
    exact hnot (List.mem_iff_getElem?.mpr ⟨k, hslash⟩)

/-- `createPath` does what it is for exactly when the path starts with its only slash, so
that there is nothing to make. -/
theorem createPath_creates_iff (fileLocation : ByteString) :
    Creates fileLocation ↔
      fileLocation.buf.head? = some slash ∧ slash ∉ fileLocation.buf.tail := by
  constructor
  · rintro ⟨rounds, _, c, hrun, hmade, -⟩
    have hhead : fileLocation.buf.head? = some slash := by
      by_contra hne
      obtain ⟨c', hloop⟩ := createPath_exhausts hne rounds ⟨[], [], []⟩
      rw [hloop] at hrun
      cases hrun
    refine ⟨hhead, ?_⟩
    obtain ⟨rest, hrest⟩ := List.head?_eq_some_iff.mp hhead
    rw [hrest, List.tail_cons, ← parents_cons hrest, ← hmade]
    cases rounds with
    | zero => cases hrun
    | succ rounds =>
      rw [createPath_of_slash hhead] at hrun
      cases hrun
      rfl
  · rintro ⟨hhead, hnot⟩
    obtain ⟨rest, hrest⟩ := List.head?_eq_some_iff.mp hhead
    rw [hrest, List.tail_cons, ← parents_cons hrest] at hnot
    refine ⟨1, _, _, createPath_of_slash hhead 0 _, hnot.symm, ?_⟩
    intro i hi
    cases hi

end Create

/-- A relative path: the loop makes `a`, then writes behind the end of the address space and
starts over. -/
theorem createPath_starts_over : ¬ ∀ fileLocation, Creates fileLocation := by
  intro hclaim
  obtain ⟨fileLocation, hbuf⟩ : ∃ fileLocation : ByteString, fileLocation.buf = [97, slash, 98] :=
    ⟨⟨[97, slash, 98], by decide⟩, rfl⟩
  obtain ⟨rounds, _, c, hrun, -⟩ := hclaim fileLocation
  have hfirst : fileLocation.buf.head? ≠ some slash := by
    rw [hbuf]
    decide
  obtain ⟨c', hloop⟩ := createPath_exhausts hfirst rounds ⟨[], [], []⟩
  rw [hloop] at hrun
  cases hrun

end Homegrown.Posix
