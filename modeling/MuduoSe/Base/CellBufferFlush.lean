/-
# What a flushed buffer writes

`persist` writes the array as a C string, but `append` puts no NUL behind what it copies and `clear`
leaves the bytes of the fill before. So where the output ends is up to the byte behind the written
region: one that the memory held at the construction, one of an earlier and longer fill, or, when the
region fills the array, the first byte behind that.

* `flushes_iff`: each flush writes what was appended since the one before, and a newline, if and only
  if each finds a NUL right behind the written region and none in it.

Key definitions: `CellBuffer.persist`, `Fills`, `fills`, `Fills.Exact`, `Fills.Terminated`.
Key theorems: `takeWhile_eq_left`, `text_eq_iff`, `flushes_iff`.
-/
import MuduoSe.Base.CellBuffer
import MuduoSe.Lib.System

namespace MuduoSe

namespace CellBuffer

/-- `persist(fp_)`, with what lies behind the array: the buffer and the output. -/
def persist (b : CellBuffer) (beyond : Bytes) : CellBuffer × Bytes := (b.clear, b.text beyond)

end CellBuffer

/-- A buffer, and what was appended to it since it was last flushed. -/
structure Fills where
  buf : CellBuffer
  since : Bytes

inductive FillEvent
  | append (str : Bytes)
  /-- A flush; `beyond` is what lies behind the array. -/
  | persist (beyond : Bytes)
  deriving DecidableEq, Repr

def Fills.start (raw : ℕ → Byte) (len : ℕ) : Fills := ⟨.new raw len, []⟩

/-- The calls on a buffer: what is appended fits, and there is a NUL somewhere behind the array. -/
def fills : System Fills FillEvent Fault where
  guard s
    | .append str => str.length ≤ s.buf.availLen
    | .persist beyond => 0 ∈ beyond
  step s
    | .append str => .ok ⟨s.buf.append str, s.since ++ str⟩
    | .persist beyond => .ok ⟨(s.buf.persist beyond).1, []⟩

instance (s : Fills) : (ev : FillEvent) → Decidable (fills.guard s ev)
  | .append str => inferInstanceAs (Decidable (str.length ≤ s.buf.availLen))
  | .persist beyond => inferInstanceAs (Decidable (0 ∈ beyond))

namespace Fills

/-- A flush writes what was appended since the last one. -/
def Exact (s : Fills) : FillEvent → Prop
  | .append _ => True
  | .persist beyond => (s.buf.persist beyond).2 = s.since ++ bytes "\n"

/-- A flush finds the first NUL right behind what was appended. -/
def Terminated (s : Fills) : FillEvent → Prop
  | .append _ => True
  | .persist beyond => 0 ∉ s.since ∧ (s.buf.data.drop s.buf.index_ ++ beyond).head? = some 0

instance (s : Fills) : (ev : FillEvent) → Decidable (s.Terminated ev)
  | .append _ => isTrue trivial
  | .persist beyond => inferInstanceAs (Decidable
      (0 ∉ s.since ∧ (s.buf.data.drop s.buf.index_ ++ beyond).head? = some 0))

end Fills

/-- What is taken is `a` if all of it is taken, and the element behind it is not. -/
theorem takeWhile_eq_left {α : Type} {p : α → Bool} {a rest : List α} {c : α} :
    (a ++ c :: rest).takeWhile p = a ↔ (∀ x ∈ a, p x = true) ∧ ¬p c = true := by
  constructor
  · intro h
    have hall : ∀ x ∈ a, p x = true := by
      intro x hx
      rw [← h] at hx
      exact List.mem_takeWhile_imp hx
    refine ⟨hall, fun hc => ?_⟩
    rw [List.takeWhile_append_of_pos hall, List.takeWhile_cons_of_pos hc] at h
    have hlen := congrArg List.length h
    rw [List.length_append, List.length_cons] at hlen
    omega
  · rintro ⟨hall, hc⟩
    rw [List.takeWhile_append_of_pos hall, List.takeWhile_cons_of_neg hc, List.append_nil]

namespace CellBuffer

/-- **When the output is what was appended.** -/
theorem text_eq_iff (b : CellBuffer) {beyond : Bytes} (h : 0 ∈ beyond) :
    b.text beyond = b.content ++ bytes "\n" ↔
      0 ∉ b.content ∧ (b.data.drop b.index_ ++ beyond).head? = some 0 := by
  have hdata : b.data ++ beyond = b.content ++ (b.data.drop b.index_ ++ beyond) := by
    unfold content
    rw [← List.append_assoc, List.take_append_drop]
  obtain ⟨c, rest, hrest⟩ := List.exists_cons_of_ne_nil
    (List.ne_nil_of_mem (List.mem_append_right (b.data.drop b.index_) h))
  unfold text
  rw [List.append_left_inj, hdata, hrest, takeWhile_eq_left, List.head?_cons, Option.some.injEq]
  simp only [decide_eq_true_eq, not_not]
  exact and_congr_left' ⟨fun hall h0 => hall 0 h0 rfl, fun h0 x hx hxc => h0 (hxc ▸ hx)⟩

end CellBuffer

/-- What is in the written region. -/
theorem fills_step {s t : Fills} (h : s.buf.content = s.since) {ev : FillEvent} (hg : fills.guard s ev)
    (hs : fills.step s ev = .ok t) : t.buf.content = t.since := by
  cases ev with
  | append str =>
    cases hs
    show (s.buf.append str).content = s.since ++ str
    rw [CellBuffer.content_append hg, h]
  | persist beyond =>
    cases hs
    exact CellBuffer.content_clear

/-- **When flushes write what was appended.** Over all sequences of calls. -/
theorem flushes_iff {raw : ℕ → Byte} {len : ℕ} {es : List FillEvent}
    (hg : fills.Always fills.guard (.start raw len) es) :
    fills.Always Fills.Exact (.start raw len) es ↔ fills.Always Fills.Terminated (.start raw len) es := by
  refine System.always_congr (I := fun s => s.buf.content = s.since) (G := fills.guard) ?_ ?_
    CellBuffer.content_new hg
  · intro s t ev h hg _ hs
    exact fills_step h hg hs
  · intro s ev h hg
    cases ev with
    | append str => exact Iff.rfl
    | persist beyond =>
      unfold Fills.Exact Fills.Terminated
      dsimp only
      rw [← h]
      exact s.buf.text_eq_iff hg

/-- A longer fill of zeroed memory after a shorter one, and one that fills the array. -/
theorem flushes_iff_longer : fills.Always Fills.Exact (.start (fun _ => 0) 6)
    [.append (bytes "ab"), .persist [0], .append (bytes "cd"), .append (bytes "e"), .persist [0],
      .append (bytes "fghijk"), .persist [0]] :=
  (flushes_iff (by decide +kernel)).mpr (by decide +kernel)

/-- A shorter fill goes out with the end of the one before. -/
theorem stale_bytes :
    ((((CellBuffer.new (fun _ => 0) 8).append (bytes "abcd")).persist [0]).1.append (bytes "xy")).text [0] =
        bytes "xycd\n" ∧
      ¬∀ (raw : ℕ → Byte) (len : ℕ) (es : List FillEvent), fills.Always fills.guard (.start raw len) es →
        fills.Always Fills.Exact (.start raw len) es := by
  refine ⟨by decide +kernel, ?_⟩
  intro h
  have hall := h (fun _ => 0) 8 [.append (bytes "abcd"), .persist [0], .append (bytes "xy"), .persist [0]]
    (by decide +kernel)
  have hlast : (((((CellBuffer.new (fun _ => 0) 8).append (bytes "abcd")).persist [0]).1.append
      (bytes "xy")).persist [0]).2 = [] ++ bytes "xy" ++ bytes "\n" :=
    (((hall.2 _ rfl).2 _ rfl).2 _ rfl).1
  exact absurd hlast (by decide +kernel)

end MuduoSe
