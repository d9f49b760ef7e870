/-
# Buffer: the byte buffer of a connection

`base/buffer.h` and `base/buffer.cc`, class `Buffer`: a `std::vector<char>` with
a read and a write index. Pointers into the vector are offsets from its
`data()`. An `int` is an `Int`: the buffers here stay below `2^31` bytes, and
then no `int` of the class leaves its range (`Valid.ints`). What a system call
returned is an argument of the function that makes the call; -1 is `none`.

A copy or a search outside its array and a failed `assert` are faults.

Key definitions: `Buffer.append`, `Buffer.retrieve`, `Buffer.readInto`, `Buffer.write`.
-/
import Mathlib.Algebra.Ring.Int.Defs
import Mathlib.Algebra.Ring.Nat
import MuduoSe.Lib.System
import MuduoSe.Lib.Cut

namespace MuduoSe

/-- A `char` of the source. -/
abbrev Byte := UInt8

/-- A run of `char`s: a `std::string`, a `std::vector<char>` or an array. -/
abbrev Bytes := List Byte

instance : LawfulBEq Bytes := inferInstance

/-- The bytes of a string literal. -/
def bytes (s : String) : Bytes := s.toList.map fun c => c.toNat.toUInt8

/-- How a function of the source can end without returning. -/
inductive Fault
  /-- An `assert` fails. -/
  | assertion
  /-- A read or a copy leaves its array. -/
  | outOfBounds
  /-- A loop does not end. -/
  | diverges
  /-- A null pointer or a pointer to a deleted object is followed. -/
  | dangling
  /-- An iterator that is `end()` is used as an element. -/
  | pastEnd
  /-- A value is converted to an integer type that does not have it. -/
  | overflow
  deriving DecidableEq, Repr

abbrev Res := Except Fault

@[simp] theorem ok_bind {α β : Type} (a : α) (f : α → Res β) : ((.ok a : Res α) >>= f) = f a := rfl

@[simp] theorem error_bind {α β : Type} (e : Fault) (f : α → Res β) :
    ((.error e : Res α) >>= f) = .error e := rfl

@[simp] theorem res_pure {α : Type} (a : α) : (pure a : Res α) = .ok a := rfl

/-- A computation that returned did so through its first step. -/
theorem bind_ok {α β : Type} {x : Res α} {f : α → Res β} {b : β} (h : x >>= f = .ok b) :
    ∃ a, x = .ok a ∧ f a = .ok b := by
  cases x with
  | error e => simp at h
  | ok a => exact ⟨a, rfl, h⟩

/-- A view of what a computation returned, by evaluation. -/
theorem map_ok {α β : Type} {x : Res α} {f : α → β} {b : β} (h : x.map f = .ok b) :
    ∃ a, x = .ok a ∧ f a = b := by
  cases x with
  | error e => cases h
  | ok a => exact ⟨a, rfl, Except.ok.inj h⟩

/-- `assert(p)`. -/
def check (p : Prop) [Decidable p] : Res Unit := if p then .ok () else .error .assertion

@[simp] theorem check_pos {p : Prop} [Decidable p] (h : p) : check p = .ok () := if_pos h

theorem check_ok {p : Prop} [Decidable p] {u : Unit} : check p = .ok u ↔ p := by
  unfold check
  split_ifs with h
  · exact iff_of_true rfl h
  · exact iff_of_false (fun he => by cases he) h

/-- An `int` where a `size_t` is wanted. -/
def sizeT (x : Int) : ℕ := if 0 ≤ x then x.toNat else (2 ^ 64 + x).toNat

theorem sizeT_of_nonneg {x : Int} (h : 0 ≤ x) : sizeT x = x.toNat := if_pos h

/-- What a system call that counts bytes returns: -1 if it failed. -/
def sysret : Option ℕ → Int
  | some n => n
  | none => -1

/-- The `len` bytes of `mem` from `off` on. -/
def load (mem : Bytes) (off len : Int) : Res Bytes :=
  if 0 ≤ off ∧ 0 ≤ len ∧ off + len ≤ mem.length then .ok ((mem.drop off.toNat).take len.toNat)
  else .error .outOfBounds

/-- `mem` with `src` copied to the place `off`. -/
def store (mem : Bytes) (off : Int) (src : Bytes) : Res Bytes :=
  if 0 ≤ off ∧ off + src.length ≤ mem.length then
    .ok (mem.take off.toNat ++ src ++ mem.drop (off.toNat + src.length))
  else .error .outOfBounds

/-- `std::vector<char>::resize`. -/
def vectorResize (mem : Bytes) (n : ℕ) : Bytes := mem.take n ++ List.replicate (n - mem.length) 0

structure Buffer where
  readindex_ : Int
  writeindex_ : Int
  buffer_ : Bytes
  deriving DecidableEq, Repr

namespace Buffer

/-- `Buffer(int len = 65535)`. -/
def new (len : ℕ) : Buffer := ⟨0, 0, List.replicate len 0⟩

def kCRLF : Bytes := bytes "\r\n"

def readsize (b : Buffer) : Int := b.writeindex_ - b.readindex_

def writesize (b : Buffer) : Int := b.buffer_.length - b.writeindex_

def peek (b : Buffer) : Int := b.readindex_

def beginWrite (b : Buffer) : Int := b.writeindex_

/-- The unread bytes move to the front. -/
def swap (b : Buffer) : Res Buffer := do
  let live ← load b.buffer_ b.readindex_ (b.writeindex_ - b.readindex_)
  let mem ← store b.buffer_ 0 live
  return ⟨0, b.readsize, mem⟩

def resize (b : Buffer) (len : Int) : Buffer :=
  { b with buffer_ := vectorResize b.buffer_ (b.buffer_.length + len + 1).toNat }

/-- `append` before its copy: compact or grow if the free tail is too short. -/
def makeRoom (b : Buffer) (len : Int) : Res Buffer :=
  if len > b.writesize ∧ len ≤ b.writesize + b.readindex_ then b.swap
  else if len > b.writesize + b.readindex_ then return b.resize len
  else return b

/-- `append(const char* buf, int len)`; `buf` is the array the pointer points to. -/
def append (b : Buffer) (buf : Bytes) (len : Int) : Res Buffer := do
  let b ← b.makeRoom len
  let src ← load buf 0 len
  let mem ← store b.buffer_ b.writeindex_ src
  return { b with buffer_ := mem, writeindex_ := b.writeindex_ + len }

/-- `append(const std::string&)`. -/
def appendString (b : Buffer) (buf : Bytes) : Res Buffer := b.append buf buf.length

/-- `append(std::vector<char>&)`. -/
def appendVector (b : Buffer) (buf : Bytes) : Res Buffer := b.append buf buf.length

/-- The place of the first CRLF between the two indices, or NULL. -/
def findCRLF (b : Buffer) : Res (Option Int) := do
  let live ← load b.buffer_ b.peek (b.beginWrite - b.peek)
  let crlf := match Cut.search kCRLF live with
    | some k => b.peek + k
    | none => b.beginWrite
  return if crlf = b.beginWrite then none else some crlf

def retrieve (b : Buffer) (len : ℕ) : Res Buffer := do
  check (len ≤ sizeT b.readsize)
  if len < sizeT b.readsize then return { b with readindex_ := b.readindex_ + len }
  else return { b with readindex_ := 0, writeindex_ := 0 }

def retrieveUntil (b : Buffer) (stop : Int) : Res Buffer := do
  check (b.peek ≤ stop)
  check (stop ≤ b.beginWrite)
  b.retrieve (sizeT (stop - b.peek))

/-- `::readv(fd, iov, 2)`: what arrived fills the free tail of `buffer_`, then
`temp`. The result is `len`, `buffer_` and `temp`. -/
def readv (b : Buffer) (temp : Bytes) : Option Bytes → Res (Int × Bytes × Bytes)
  | none => return (-1, b.buffer_, temp)
  | some d => do
    let mem ← store b.buffer_ b.writeindex_ (d.take b.writesize.toNat)
    let temp ← store temp 0 (d.drop b.writesize.toNat)
    return (d.length, mem, temp)

/-- `read`, with what `temp` holds before the call of `readv`. -/
def readInto (b : Buffer) (temp : Bytes) (r : Option Bytes) : Res (Int × Buffer) := do
  let (len, mem, temp) ← b.readv temp r
  let b := { b with buffer_ := mem }
  if len ≤ b.writesize then return (len, { b with writeindex_ := b.writeindex_ + len })
  else
    let b := { b with writeindex_ := b.buffer_.length }
    let b ← b.append temp (len - b.writesize)
    return (len, b)

/-- `read(fd)`, where `readv` delivers `r`: `temp` is cleared with `bzero`. -/
def read (b : Buffer) (r : Option Bytes) : Res (Int × Buffer) :=
  b.readInto (List.replicate 1024 0) r

/-- `write(fd)`, where `::write` returns `r`; the bytes the kernel took are part
of the result. -/
def write (b : Buffer) (r : Option ℕ) : Res (Int × Bytes × Buffer) := do
  let out ← load b.buffer_ b.readindex_ b.readsize
  let len := sysret r
  return (len, out.take len.toNat, { b with readindex_ := b.readindex_ + len })

end Buffer
end MuduoSe
