/-
# cell_buffer: a buffer of the logger

`base/buffer.h` and `base/buffer.cc`, class `cell_buffer`. The indices of a buffer stay inside of its
array, so `len_ - index_` does not wrap.

Key definitions: `CellBuffer.append`, `CellBuffer.clear`, `CellBuffer.text`.
Key theorems: `content_append`, `content_text`, `text_no_nul`.
-/
import Mathlib.Data.List.TakeWhile
import MuduoSe.Base.Buffer

namespace MuduoSe

inductive BufferStatus
  | FREE
  | FULL
  deriving DecidableEq, Repr

/-- Pointers are the numbers of buffers, 0 is NULL. -/
structure CellBuffer where
  status : BufferStatus
  pre : ℕ
  next : ℕ
  len_ : ℕ
  index_ : ℕ
  data : Bytes
  size : data.length = len_
  bounded : index_ ≤ len_

namespace CellBuffer

/-- `cell_buffer(uint32_t len)`; `raw` is what the memory holds that `new` returns. -/
def new (raw : ℕ → Byte) (len : ℕ) : CellBuffer where
  status := .FREE
  pre := 0
  next := 0
  len_ := len % 2 ^ 32
  index_ := 0
  data := (List.range (len % 2 ^ 32)).map raw
  size := by simp
  bounded := Nat.zero_le _

def availLen (b : CellBuffer) : ℕ := b.len_ - b.index_

def empty (b : CellBuffer) : Bool := b.len_ == 0

def append (b : CellBuffer) (str : Bytes) : CellBuffer :=
  if h : b.availLen < str.length then b
  else
    { b with
      data := b.data.take b.index_ ++ str ++ b.data.drop (b.index_ + str.length)
      index_ := b.index_ + str.length
      size := by
        have := b.size
        have := b.bounded
        unfold availLen at h
        simp only [List.length_append, List.length_take, List.length_drop]
        omega
      bounded := by
        have := b.bounded
        unfold availLen at h
        omega }

def clear (b : CellBuffer) : CellBuffer :=
  { b with index_ := 0, status := .FREE, bounded := Nat.zero_le _ }

/-- What `fp_ << data << std::endl` writes: the array up to its first NUL. Where there is none, the
output goes on with what lies behind the array, `beyond`. -/
def text (b : CellBuffer) (beyond : Bytes) : Bytes :=
  (b.data ++ beyond).takeWhile (· ≠ 0) ++ bytes "\n"

/-- What was appended since the last `clear`. -/
def content (b : CellBuffer) : Bytes := b.data.take b.index_

variable {b : CellBuffer} {str : Bytes}

theorem content_append (h : str.length ≤ b.availLen) : (b.append str).content = b.content ++ str := by
  have hsize := b.size
  have hbounded := b.bounded
  have htake : (b.data.take b.index_ ++ str).length = b.index_ + str.length := by
    rw [List.length_append, List.length_take]
    omega
  unfold append
  rw [dif_neg (not_lt.mpr h)]
  unfold content
  dsimp only
  rw [← htake, List.take_left]

theorem append_full (h : ¬str.length ≤ b.availLen) : b.append str = b := by
  unfold append
  rw [dif_pos (not_le.mp h)]

@[simp] theorem append_status : (b.append str).status = b.status := by
  unfold append
  split_ifs <;> rfl

@[simp] theorem append_next : (b.append str).next = b.next := by
  unfold append
  split_ifs <;> rfl

@[simp] theorem append_pre : (b.append str).pre = b.pre := by
  unfold append
  split_ifs <;> rfl

@[simp] theorem append_len : (b.append str).len_ = b.len_ := by
  unfold append
  split_ifs <;> rfl

@[simp] theorem content_clear : b.clear.content = [] := List.take_zero

@[simp] theorem content_new {raw : ℕ → Byte} {len : ℕ} : (new raw len).content = [] :=
  List.take_zero

/-- A buffer is written from its beginning on, up to a NUL. -/
theorem content_text (b : CellBuffer) (beyond : Bytes) :
    b.content.takeWhile (· ≠ 0) <+: b.text beyond := by
  have hdata : b.data ++ beyond = b.content ++ (b.data.drop b.index_ ++ beyond) := by
    unfold content
    rw [← List.append_assoc, List.take_append_drop]
  unfold text
  rw [hdata, List.takeWhile_append]
  split_ifs with hall
  · rw [List.append_assoc]
    exact (List.takeWhile_prefix _).trans (List.prefix_append _ _)
  · exact List.prefix_append _ _

theorem text_no_nul (b : CellBuffer) (beyond : Bytes) : (0 : Byte) ∉ b.text beyond := by
  unfold text
  rw [List.mem_append, not_or]
  refine ⟨?_, by decide⟩
  intro hmem
  have hne := List.mem_takeWhile_imp hmem
  exact absurd rfl (of_decide_eq_true hne)

end CellBuffer

end MuduoSe
