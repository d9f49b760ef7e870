/-
# Files and an output stream

Files are named by paths and hold lists of `β`. A program writes them through one output stream, as
`std::ofstream` describes it: a stream that is open on a file does not open another, but sets its
fail bit; one that opens a file clears it; what is written while the fail bit is set goes nowhere.
Whether the system lets a closed stream open a file is the environment's choice (`ok`).

Key definitions: `Disk`, `Disk.openOut`, `Disk.openApp`, `Disk.write`, `Disk.rename`.
-/
import Mathlib.Logic.Function.Basic
import Mathlib.Tactic.Common

/-- What a stream is open on. -/
inductive Target (Path : Type*)
  | file (p : Path)
  /-- A device that keeps nothing. -/
  | null
  deriving DecidableEq, Repr

/-- The files of the system, and a stream. -/
structure Disk (Path β : Type*) where
  files : Path → Option (List β)
  target : Option (Target Path)
  failbit : Bool
  /-- What the stream has written, wherever it was open on. -/
  sent : List β

namespace Disk

variable {Path β : Type*}

def isOpen (d : Disk Path β) : Bool := d.target.isSome

/-- `open` of a stream; `files` is what becomes of the files if the stream opens. -/
def openOn (d : Disk Path β) (target : Target Path) (files : Path → Option (List β)) (ok : Bool) :
    Disk Path β :=
  if d.isOpen || !ok then { d with failbit := true }
  else { d with files := files, target := some target, failbit := false }

def openNull (d : Disk Path β) (ok : Bool) : Disk Path β := d.openOn .null d.files ok

variable [DecidableEq Path]

/-- The file is created or truncated. -/
def openOut (d : Disk Path β) (p : Path) (ok : Bool) : Disk Path β :=
  d.openOn (.file p) (Function.update d.files p (some [])) ok

/-- The file is created if there is none, and written at its end. -/
def openApp (d : Disk Path β) (p : Path) (ok : Bool) : Disk Path β :=
  d.openOn (.file p) (Function.update d.files p (some ((d.files p).getD []))) ok

omit [DecidableEq Path] in
def close (d : Disk Path β) : Disk Path β :=
  if d.isOpen then { d with target := none } else { d with failbit := true }

def write (d : Disk Path β) (text : List β) : Disk Path β :=
  if d.failbit || !d.isOpen then { d with failbit := true }
  else
    match d.target with
    | some (.file p) =>
      { d with files := Function.update d.files p (some ((d.files p).getD [] ++ text)),
               sent := d.sent ++ text }
    | _ => { d with sent := d.sent ++ text }

omit [DecidableEq Path] in
/-- The place of the next byte. -/
def tellp (d : Disk Path β) : ℕ :=
  match d.target with
  | some (.file p) => ((d.files p).getD []).length
  | _ => 0

/-- The file `p` gets the name `q`, also if there was a file of that name. -/
def rename (d : Disk Path β) (p q : Path) : Disk Path β :=
  match d.files p with
  | some content =>
    { d with files := Function.update (Function.update d.files q (some content)) p none }
  | none => d

/-! ### The stream -/

variable {d : Disk Path β} {p q : Path} {text : List β} {ok : Bool}

/-- The fail bit is set if and only if the stream is closed. -/
def Coherent (d : Disk Path β) : Prop := d.failbit = !d.isOpen

section

omit [DecidableEq Path]

theorem Coherent.closed (h : d.Coherent) (hfail : d.failbit = true) : d.isOpen = false := by
  unfold Coherent at h
  rw [hfail] at h
  simpa using h.symm

variable {target : Target Path} {files : Path → Option (List β)}

theorem openOn_coherent (h : d.isOpen = false) : (d.openOn target files ok).Coherent := by
  unfold openOn Coherent
  cases ok with
  | true =>
    rw [h]
    rfl
  | false =>
    rw [Bool.not_false, Bool.or_true, if_pos rfl]
    show true = !d.isOpen
    rw [h]
    rfl

/-- A closed stream opens. -/
theorem openOn_closed (h : d.isOpen = false) : d.openOn target files true =
    { d with files := files, target := some target, failbit := false } := by
  unfold openOn
  rw [h]
  rfl

/-- An open stream does not. -/
theorem openOn_open (h : d.isOpen = true) : d.openOn target files ok = { d with failbit := true } := by
  unfold openOn
  rw [h]
  rfl

@[simp] theorem openOn_sent : (d.openOn target files ok).sent = d.sent := by
  unfold openOn
  split_ifs <;> rfl

@[simp] theorem close_isOpen (d : Disk Path β) : d.close.isOpen = false := by
  unfold close
  split_ifs with h
  · rfl
  · exact Bool.not_eq_true _ ▸ h

@[simp] theorem close_sent : d.close.sent = d.sent := by
  unfold close
  split_ifs <;> rfl

@[simp] theorem close_files : d.close.files = d.files := by
  unfold close
  split_ifs <;> rfl

end

@[simp] theorem rename_isOpen : (d.rename p q).isOpen = d.isOpen := by
  unfold rename
  split <;> rfl

@[simp] theorem rename_sent : (d.rename p q).sent = d.sent := by
  unfold rename
  split <;> rfl

theorem openApp_failbit : (d.openApp p true).failbit = d.isOpen := by
  unfold openApp
  cases h : d.isOpen with
  | true => rw [openOn_open h]
  | false => rw [openOn_closed h]

/-- The file has its new name. -/
theorem rename_moves {content : List β} (h : d.files p = some content) (hne : p ≠ q) :
    (d.rename p q).files q = some content := by
  unfold rename
  rw [h]
  dsimp only
  rw [Function.update_of_ne hne.symm, Function.update_self]

theorem rename_other {r : Path} (hp : r ≠ p) (hq : r ≠ q) : (d.rename p q).files r = d.files r := by
  unfold rename
  split
  · dsimp only
    rw [Function.update_of_ne hp, Function.update_of_ne hq]
  · rfl

/-- A file gets a name that is free. -/
theorem rename_free (hfree : d.files q = none) (hne : p ≠ q) :
    (d.rename p q).files q = d.files p ∧ (d.rename p q).files p = none := by
  unfold rename
  split
  · rename_i content h
    dsimp only
    rw [Function.update_of_ne hne.symm, Function.update_self, Function.update_self, h]
    exact ⟨rfl, rfl⟩
  · rename_i h
    exact ⟨hfree.trans h.symm, h⟩

theorem write_closed (h : d.failbit = true) : d.write text = d := by
  unfold write
  rw [h, Bool.true_or, if_pos rfl]
  cases d
  exact congrArg (Disk.mk _ _ · _) h.symm

/-- An open stream writes. -/
theorem write_open (text : List β) (h : d.Coherent) (hopen : d.isOpen = true) : (d.write text).Coherent ∧
    (d.write text).target = d.target ∧ (d.write text).sent = d.sent ++ text ∧
      (d.write text).files = match d.target with
        | some (.file p) => Function.update d.files p (some ((d.files p).getD [] ++ text))
        | _ => d.files := by
  have hfail : (d.failbit || !d.isOpen) = false := by
    rw [h, hopen]
    rfl
  unfold write
  rw [hfail, if_neg Bool.false_ne_true]
  split <;> rename_i htarget
  · exact ⟨h, rfl, rfl, rfl⟩
  · exact ⟨h, rfl, rfl, rfl⟩

/-- A text is appended to a file; a stream that is open on another one appends nothing. -/
theorem append_files (d : Disk Path β) (p : Path) (text : List β) :
    ((d.openApp p true).write text).close.files =
      if d.isOpen then d.files
      else Function.update d.files p (some ((d.files p).getD [] ++ text)) := by
  rw [close_files]
  cases h : d.isOpen with
  | true =>
    rw [write_closed (openApp_failbit.trans h), openApp, openOn_open h]
    rfl
  | false =>
    unfold openApp
    rw [openOn_closed h]
    obtain ⟨-, -, -, hfiles⟩ := write_open text
      (d := ⟨Function.update d.files p (some ((d.files p).getD [])), some (.file p), false, d.sent⟩) rfl rfl
    rw [hfiles]
    dsimp only
    rw [Function.update_self, Function.update_idem]
    rfl

end Disk
