/-
# Sends from other threads

`TcpConnect::send` may be called in any thread: in the thread of the loop it is `sendinloop`, and in any
other `bind(&TcpConnect::sendinloop, this, str, len)` is handed to `runinloop`. What is queued then is the
pointer that the caller passed, not the text. `SendLoop` is a connection with its loop, the threads that
send, and the memory of their texts, which they may write to and release at any time. The loop is a local
of `threadfunc`: when `loop()` has returned it is gone, and every use of it is the fault `dangling`.

* `texts_sent`: if no text is touched while it is queued, and no thread is still at the loop when it is gone,
  the bytes that were sent are the texts of all calls, those of other threads in the order of their calls,
  and none is left asleep in the loop.
* `texts_late`: if texts are touched, order and lengths are right all the same, but what is sent is what
  the memory holds when the functor is run, and the loop gets through its functors if and only if all of
  the texts are still there.

Key definitions: `SendCall`, `SendLoop`, `SendEvent.late`, `sendLoop`, `SendLoop.Good`, `SendLoop.Kept`.
Key theorems: `perform_spec`, `send_loop_step`, `Kept.step`, `rounds_iff`, `texts_sent`, `texts_late`.
-/
import Mathlib.Data.List.Forall2
import MuduoSe.Net.EventLoopWake
import MuduoSe.Net.TcpFailures

namespace MuduoSe

/-- What other threads hand to `runinloop`. -/
inductive SendCall
  /-- `bind(&TcpConnect::sendinloop, this, str, len)` -/
  | sendinloop (str len : ℕ)
  /-- Any functor that is not about this connection. -/
  | other
  deriving DecidableEq, Repr

def SendCall.str : SendCall → Option ℕ
  | .sendinloop str _ => some str
  | .other => none

/-- How many bytes are sent. -/
def SendCall.len : SendCall → ℕ
  | .sendinloop _ len => len
  | .other => 0

/-- A connection in its loop. -/
structure SendLoop (ι : Type) where
  threads : Looper ι SendCall
  session : Session
  /-- The text that a `const char*` points to, `none` once it was released. -/
  memory : ℕ → Option Bytes
  /-- The texts that other threads have sent, as they were when `send` was called. -/
  called : List (ι × Bytes)
  /-- The texts that `sendinloop` was called with, and the thread whose functor it was. -/
  entered : List (Option ι × Bytes)

inductive SendEvent (ι : Type)
  /-- A step of the loop that runs no functor, or a `quit` or a `wake` of a thread. -/
  | loop (ev : LoopEvent ι SendCall)
  /-- `send(str, len)` in the thread `i`, up to the `wake` of `queueloop`. -/
  | send (i : ι) (str len : ℕ)
  /-- `runinloop` of another functor in the thread `i`. -/
  | queue (i : ι)
  /-- `send(str, len)` in the thread of the loop, where `::write` returns `n` if it is called. -/
  | sendHere (str len n : ℕ)
  /-- The socket is writable, and `::write` returns `n`. -/
  | handlewrite (n : ℕ)
  /-- `shutdown()` in the thread of the loop. -/
  | shutdown
  /-- Some thread writes to the text at `str`, or releases it. -/
  | store (str : ℕ) (text : Option Bytes)
  /-- The next functor, where `::write` returns `n` if it is called. -/
  | run (n : ℕ)

/-- The `len` bytes at `str`. -/
def textAt (memory : ℕ → Option Bytes) (str len : ℕ) : Option Bytes :=
  let text := (memory str).getD []
  if len ≤ text.length then some (text.take len) else none

namespace SendLoop

variable {ι : Type}

/-- An open connection, and any texts. -/
def start (fd : Int) (cap : ℕ) (memory : ℕ → Option Bytes) : SendLoop ι :=
  ⟨.start, .start fd cap, memory, [], []⟩

/-- The functors that were not run yet. -/
def waiting (s : SendLoop ι) : List (ι × SendCall) := s.threads.loop.temp ++ s.threads.loop.pendfunclists_

/-- What the next functor offers to the kernel. -/
def offer (s : SendLoop ι) : ℕ := (s.threads.loop.temp.head?.map fun x => x.2.len).getD 0

/-- `sendinloop(str, len)`, called for `i`. -/
def sendinloop (s : SendLoop ι) (i : Option ι) (str len n : ℕ) : Res (SendLoop ι) :=
  match textAt s.memory str len with
  | some text => do
    let u ← output.step s.session (.sendinloop text n)
    return { s with session := u, entered := s.entered ++ [(i, text)] }
  | none => .error .dangling

/-- A functor of the thread `i`. -/
def call (s : SendLoop ι) (i : ι) (n : ℕ) : SendCall → Res (SendLoop ι)
  | .sendinloop str len => s.sendinloop (some i) str len n
  | .other => .ok s

/-- The texts that came from other threads. -/
def foreign (es : List (Option ι × Bytes)) : List (ι × Bytes) := es.filterMap fun x => x.1.map fun i => (i, x.2)

end SendLoop

open SendLoop

/-- It is a step of the loop, or of a thread that follows a pointer to it. -/
def SendEvent.uses {ι : Type} : SendEvent ι → Bool
  | .loop .started | .store _ _ => false
  | _ => true

/-- `loop()` has returned, and `threadfunc` behind it: there is no loop any more. -/
def SendEvent.late {ι : Type} (s : SendLoop ι) (ev : SendEvent ι) : Prop := s.threads.pc = .ended ∧ ev.uses = true

instance {ι : Type} (s : SendLoop ι) (ev : SendEvent ι) : Decidable (ev.late s) :=
  inferInstanceAs (Decidable (_ ∧ _))

section

variable {ι : Type} [DecidableEq ι]

/-- What an event does while the loop is there. -/
def SendLoop.perform (s : SendLoop ι) : SendEvent ι → Res (SendLoop ι)
  | .loop ev => do
    let l ← looper.step s.threads ev
    return { s with threads := l }
  | .send i str len => do
    let l ← looper.step s.threads (.push i (.sendinloop str len))
    return { s with threads := l, called := s.called ++ [(i, (textAt s.memory str len).getD [])] }
  | .queue i => do
    let l ← looper.step s.threads (.push i .other)
    return { s with threads := l }
  | .sendHere str len n => s.sendinloop none str len n
  | .handlewrite n => do
    let u ← output.step s.session (.handlewrite (some n))
    return { s with session := u }
  | .shutdown => do
    let u ← output.step s.session .shutdown
    return { s with session := u }
  | .store str text => .ok { s with memory := Function.update s.memory str text }
  | .run n =>
    match s.threads.loop.temp with
    | (i, f) :: _ => do
      let l ← looper.step s.threads .run
      { s with threads := l }.call i n f
    | [] => .error .pastEnd

/-- A connection, its loop and the threads that send. -/
def sendLoop : System (SendLoop ι) (SendEvent ι) Fault where
  guard s
    | .loop ev => ev.besides = true ∧ looper.guard s.threads ev
    | .send i str len => looper.guard s.threads (.push i .other) ∧ (textAt s.memory str len).isSome = true
    | .queue i => looper.guard s.threads (.push i .other)
    | .sendHere str len n => s.threads.pc.calls = true ∧ (textAt s.memory str len).isSome = true ∧ n ≤ len
    | .handlewrite n => s.threads.pc.handles = true ∧ s.session.possible (.handlewrite (some n))
    | .shutdown => s.threads.pc.calls = true
    | .store _ _ => True
    | .run n => looper.guard s.threads .run ∧ n ≤ s.offer
  step s ev := if ev.late s then .error .dangling else s.perform ev

/-- Nobody touches a text that is queued. -/
def SendEvent.keeps (s : SendLoop ι) : SendEvent ι → Prop
  | .store str _ => ∀ x ∈ s.waiting, x.2.str ≠ some str
  | _ => True

/-- The same, with threads that keep the texts they have sent until the loop has run the functors, and have
finished with the loop when it is gone. -/
def keptLoop : System (SendLoop ι) (SendEvent ι) Fault where
  guard s ev := sendLoop.guard s ev ∧ ev.keeps s ∧ ¬ev.late s
  step := sendLoop.step

instance (s : SendLoop ι) : (ev : SendEvent ι) → Decidable (sendLoop.guard s ev)
  | .loop _ => inferInstanceAs (Decidable (_ ∧ looper.guard _ _))
  | .send i _ _ => inferInstanceAs (Decidable (looper.guard s.threads (.push i .other) ∧ _))
  | .queue i => inferInstanceAs (Decidable (looper.guard s.threads (.push i .other)))
  | .sendHere _ _ _ => inferInstanceAs (Decidable (_ ∧ _ ∧ _))
  | .handlewrite n => inferInstanceAs (Decidable (_ ∧ s.session.possible (.handlewrite (some n))))
  | .shutdown => inferInstanceAs (Decidable (_ = _))
  | .store _ _ => inferInstanceAs (Decidable True)
  | .run _ => inferInstanceAs (Decidable (looper.guard s.threads .run ∧ _))

instance (s : SendLoop ι) (ev : SendEvent ι) : Decidable (keptLoop.guard s ev) :=
  have : Decidable (ev.keeps s) :=
    match ev with
    | .store _ _ => inferInstanceAs (Decidable (∀ x ∈ s.waiting, _ ≠ _))
    | .loop _ | .send _ _ _ | .queue _ | .sendHere _ _ _ | .handlewrite _ | .shutdown | .run _ =>
      inferInstanceAs (Decidable True)
  inferInstanceAs (Decidable (_ ∧ _ ∧ _))

end

/-! ### What is queued -/

/-- The text of the functor is there. -/
def SendCall.held (memory : ℕ → Option Bytes) : SendCall → Bool
  | .sendinloop str len => (textAt memory str len).isSome
  | .other => true

namespace SendLoop

variable {ι : Type}

/-- The texts of the functors, as the memory has them. -/
def texts (memory : ℕ → Option Bytes) (fs : List (ι × SendCall)) : List (ι × Bytes) :=
  fs.filterMap fun x => match x.2 with
    | .sendinloop str len => (textAt memory str len).map fun text => (x.1, text)
    | .other => none

/-- What the functors add to the stream. -/
def arrived (memory : ℕ → Option Bytes) (fs : List (ι × SendCall)) : List (Option ι × Bytes) :=
  (texts memory fs).map fun x => (some x.1, x.2)

/-- Who sends how much. -/
def sizes (fs : List (ι × SendCall)) : List (ι × ℕ) :=
  fs.filterMap fun x => match x.2 with
    | .sendinloop _ len => some (x.1, len)
    | .other => none

variable {memory : ℕ → Option Bytes} {fs gs : List (ι × SendCall)} {x : ι × SendCall} {str len n : ℕ} {text : Bytes}

theorem textAt_length (h : textAt memory str len = some text) : text.length = len := by
  unfold textAt at h
  dsimp only at h
  split_ifs at h with hlen
  cases h
  rw [List.length_take, min_eq_left hlen]

theorem textAt_update (hne : str ≠ n) (t : Option Bytes) :
    textAt (Function.update memory n t) str len = textAt memory str len := by
  unfold textAt
  rw [Function.update_of_ne hne]

theorem texts_append : texts memory (fs ++ gs) = texts memory fs ++ texts memory gs := List.filterMap_append

theorem texts_cons : texts memory (x :: fs) = texts memory [x] ++ texts memory fs := List.filterMap_append (l := [x])

theorem sizes_append : sizes (fs ++ gs) = sizes fs ++ sizes gs := List.filterMap_append

theorem sizes_cons : sizes (x :: fs) = sizes [x] ++ sizes fs := List.filterMap_append (l := [x])

/-- A text that no functor has is written to. -/
theorem held_update (hne : x.2.str ≠ some n) (t : Option Bytes) :
    x.2.held (Function.update memory n t) = x.2.held memory := by
  obtain ⟨i, f⟩ := x
  cases f with
  | sendinloop str len =>
    have hne : str ≠ n := fun he => hne (congrArg some he)
    exact congrArg Option.isSome (textAt_update hne t)
  | other => rfl

theorem texts_update (hne : ∀ x ∈ fs, x.2.str ≠ some n) (t : Option Bytes) :
    texts (Function.update memory n t) fs = texts memory fs := by
  refine List.filterMap_congr fun x hx => ?_
  obtain ⟨i, f⟩ := x
  cases f with
  | sendinloop str len =>
    have hne : str ≠ n := fun he => hne _ hx (congrArg some he)
    dsimp only
    rw [textAt_update hne]
  | other => rfl

theorem foreign_append {es es' : List (Option ι × Bytes)} : foreign (es ++ es') = foreign es ++ foreign es' :=
  List.filterMap_append

theorem foreign_arrived : foreign (arrived memory fs) = texts memory fs := by
  unfold foreign arrived
  rw [List.filterMap_map]
  exact List.filterMap_some

theorem arrived_snd : (arrived memory fs).map Prod.snd = (texts memory fs).map Prod.snd := by
  unfold arrived
  rw [List.map_map]
  rfl

/-- Where all texts are there, none is missing. -/
theorem texts_lengths : ∀ {fs : List (ι × SendCall)}, (∀ x ∈ fs, x.2.held memory = true) →
    (texts memory fs).map (fun x => (x.1, x.2.length)) = sizes fs
  | [], _ => rfl
  | (i, f) :: fs, h => by
    rw [texts_cons, sizes_cons, List.map_append, texts_lengths fun x hx => h x (List.mem_cons_of_mem _ hx)]
    congr 1
    cases f with
    | other => rfl
    | sendinloop str len =>
      obtain ⟨text, htext⟩ := Option.isSome_iff_exists.mp (h _ List.mem_cons_self)
      unfold texts
      rw [List.filterMap_cons_some (b := (i, text)) (by dsimp only; rw [htext]; rfl)]
      show [(i, text.length)] = [(i, len)]
      rw [textAt_length htext]

/-! ### What a step does -/

/-- A text that is there enters the stream. -/
theorem sendinloop_spec {s : SendLoop ι} (hs : s.session.OutGood) (htext : textAt s.memory str len = some text)
    (hn : n ≤ len) (who : Option ι) : ∃ u, s.sendinloop who str len n =
      .ok { s with session := u, entered := s.entered ++ [(who, text)] } ∧ u.OutGood ∧
      u.queued = s.session.queued ++ text := by
  rw [← textAt_length htext] at hn
  obtain ⟨u, hu, hgood, -⟩ := hs.send hn
  refine ⟨u, ?_, hgood, ?_⟩
  · unfold SendLoop.sendinloop
    rw [htext]
    dsimp only
    rw [show output.step s.session (.sendinloop text n) = .ok u from hu, ok_bind, res_pure]
  · rw [step_queued hu]
    exact congrArg _ (List.append_nil text)

/-- A functor whose text is there. -/
theorem call_spec {s : SendLoop ι} (hs : s.session.OutGood) {f : SendCall} (hn : n ≤ f.len)
    (hf : f.held s.memory = true) (i : ι) : ∃ u, s.call i n f =
      .ok { s with session := u, entered := s.entered ++ arrived s.memory [(i, f)] } ∧ u.OutGood ∧
      u.queued = s.session.queued ++ ((texts s.memory [(i, f)]).map Prod.snd).flatten := by
  cases f with
  | other => exact ⟨s.session, by simp [call, arrived, texts], hs, by simp [texts]⟩
  | sendinloop str len =>
    obtain ⟨text, htext⟩ := Option.isSome_iff_exists.mp hf
    obtain ⟨u, hu, hgood, hqueued⟩ := sendinloop_spec hs htext hn (some i)
    refine ⟨u, ?_, hgood, ?_⟩
    · rw [show s.call i n (.sendinloop str len) = s.sendinloop (some i) str len n from rfl, hu]
      simp [arrived, texts, htext]
    · simpa [texts, htext] using hqueued

/-- A functor whose text is not. -/
theorem call_dangling {s : SendLoop ι} {f : SendCall} (hf : f.held s.memory ≠ true) (i : ι) :
    s.call i n f = .error .dangling := by
  cases f with
  | other => exact absurd rfl hf
  | sendinloop str len =>
    cases htext : textAt s.memory str len with
    | some text => exact absurd (congrArg Option.isSome htext) hf
    | none =>
      unfold call SendLoop.sendinloop
      dsimp only
      rw [htext]

/-- The output side goes on. -/
theorem output_spec {s : SendLoop ι} (hs : s.session.OutGood) {e : Event} (hg : output.guard s.session e)
    (hsent : sent [e] = []) : ∃ u, output.step s.session e = .ok u ∧ u.OutGood ∧ u.queued = s.session.queued := by
  obtain ⟨u, hu, hgood⟩ := out_step hs hg
  have hq := step_queued hu
  rw [hsent, List.append_nil] at hq
  exact ⟨u, hu, hgood, hq⟩

inductive Moved (s : SendLoop ι) : SendEvent ι → SendLoop ι → Prop
  | loop {ev : LoopEvent ι SendCall} {l : Looper ι SendCall} : l.Queued →
      l.loop.temp ++ l.loop.pendfunclists_ = s.waiting → Moved s (.loop ev) { s with threads := l }
  | send {i : ι} {str len : ℕ} {text : Bytes} {l : Looper ι SendCall} : textAt s.memory str len = some text →
      l.Queued → l.loop.temp ++ l.loop.pendfunclists_ = s.waiting ++ [(i, .sendinloop str len)] →
      Moved s (.send i str len) { s with threads := l, called := s.called ++ [(i, text)] }
  | queue {i : ι} {l : Looper ι SendCall} : l.Queued →
      l.loop.temp ++ l.loop.pendfunclists_ = s.waiting ++ [(i, .other)] → Moved s (.queue i) { s with threads := l }
  | sendHere {str len n : ℕ} {text : Bytes} {u : Session} : u.OutGood → u.queued = s.session.queued ++ text →
      Moved s (.sendHere str len n) { s with session := u, entered := s.entered ++ [(none, text)] }
  | handlewrite {n : ℕ} {u : Session} : u.OutGood → u.queued = s.session.queued →
      Moved s (.handlewrite n) { s with session := u }
  | shutdown {u : Session} : u.OutGood → u.queued = s.session.queued → Moved s .shutdown { s with session := u }
  | store {str : ℕ} {text : Option Bytes} :
      Moved s (.store str text) { s with memory := Function.update s.memory str text }
  | run {n : ℕ} {x : ι × SendCall} {l : Looper ι SendCall} {u : Session} : l.Queued →
      s.waiting = x :: (l.loop.temp ++ l.loop.pendfunclists_) → x.2.held s.memory = true → u.OutGood →
      u.queued = s.session.queued ++ ((texts s.memory [x]).map Prod.snd).flatten →
      Moved s (.run n) { s with threads := l, session := u, entered := s.entered ++ arrived s.memory [x] }

/-! ### What every step keeps -/

variable {s t : SendLoop ι} {ev : SendEvent ι}

/-- Whatever is done with the texts. -/
structure Good (s : SendLoop ι) : Prop where
  queue : s.threads.Queued
  out : s.session.OutGood
  stream : (s.entered.map Prod.snd).flatten = s.session.queued
  lengths : (foreign s.entered).map (fun x => (x.1, x.2.length)) ++ sizes s.waiting =
    s.called.map fun x => (x.1, x.2.length)

theorem start_good (fd : Int) (cap : ℕ) (memory : ℕ → Option Bytes) : (start fd cap memory : SendLoop ι).Good where
  queue := Looper.start_queued
  out := Session.start_outGood fd cap
  stream := rfl
  lengths := rfl

theorem Good.moved (h : s.Good) (hm : s.Moved ev t) : t.Good := by
  cases hm with
  | loop hq hwaiting =>
    refine ⟨hq, h.out, h.stream, ?_⟩
    show _ ++ sizes (_ ++ _) = _
    rw [hwaiting, h.lengths]
  | send htext hq hwaiting =>
    refine ⟨hq, h.out, h.stream, ?_⟩
    show _ ++ sizes (_ ++ _) = (s.called ++ _).map _
    rw [hwaiting, sizes_append, ← List.append_assoc, h.lengths, List.map_append, ← textAt_length htext]
    rfl
  | queue hq hwaiting =>
    refine ⟨hq, h.out, h.stream, ?_⟩
    show _ ++ sizes (_ ++ _) = _
    rw [hwaiting, sizes_append, ← List.append_assoc, h.lengths]
    exact List.append_nil _
  | sendHere hgood hqueued =>
    refine ⟨h.queue, hgood, ?_, ?_⟩
    · show ((s.entered ++ _).map _).flatten = _
      rw [hqueued, ← h.stream]
      simp
    · show (foreign (s.entered ++ _)).map _ ++ _ = _
      rw [foreign_append, show foreign [(none, _)] = ([] : List (ι × Bytes)) from rfl, List.append_nil]
      exact h.lengths
  | handlewrite hgood hqueued => exact ⟨h.queue, hgood, h.stream.trans hqueued.symm, h.lengths⟩
  | shutdown hgood hqueued => exact ⟨h.queue, hgood, h.stream.trans hqueued.symm, h.lengths⟩
  | store => exact ⟨h.queue, h.out, h.stream, h.lengths⟩
  | @run _ x _ _ hq hwaiting hheld hgood hqueued =>
    refine ⟨hq, hgood, ?_, ?_⟩
    · show ((s.entered ++ _).map _).flatten = _
      rw [List.map_append, List.flatten_append, h.stream, arrived_snd, hqueued]
    · have hx : ∀ y ∈ [x], y.2.held s.memory = true := fun y hy => List.mem_singleton.mp hy ▸ hheld
      show (foreign (s.entered ++ _)).map _ ++ sizes (_ ++ _) = _
      rw [← h.lengths, hwaiting, sizes_cons, foreign_append, foreign_arrived, List.map_append, List.append_assoc,
        texts_lengths hx]

/-- Where no text is touched that is queued. -/
structure Kept (s : SendLoop ι) : Prop where
  good : s.Good
  held : ∀ x ∈ s.waiting, x.2.held s.memory = true
  order : foreign s.entered ++ texts s.memory s.waiting = s.called

theorem start_kept (fd : Int) (cap : ℕ) (memory : ℕ → Option Bytes) : (start fd cap memory : SendLoop ι).Kept where
  good := start_good fd cap memory
  held _ hx := absurd hx List.not_mem_nil
  order := rfl

theorem Kept.moved (h : s.Kept) (hm : s.Moved ev t) (hkeeps : ev.keeps s) : t.Kept := by
  have hgood := h.good.moved hm
  cases hm with
  | loop hq hwaiting =>
    refine ⟨hgood, fun x hx => h.held x (hwaiting ▸ hx), ?_⟩
    show _ ++ texts _ (_ ++ _) = _
    rw [hwaiting]
    exact h.order
  | @send i str len text l htext hq hwaiting =>
    refine ⟨hgood, fun x hx => ?_, ?_⟩
    · have hx : x ∈ l.loop.temp ++ l.loop.pendfunclists_ := hx
      rw [hwaiting] at hx
      rcases List.mem_append.mp hx with hx | hx
      · exact h.held x hx
      · rw [List.mem_singleton.mp hx]
        exact congrArg Option.isSome htext
    · show _ ++ texts s.memory (_ ++ _) = s.called ++ _
      rw [hwaiting, texts_append, ← List.append_assoc, h.order]
      simp [texts, htext]
  | @queue i l hq hwaiting =>
    refine ⟨hgood, fun x hx => ?_, ?_⟩
    · have hx : x ∈ l.loop.temp ++ l.loop.pendfunclists_ := hx
      rw [hwaiting] at hx
      rcases List.mem_append.mp hx with hx | hx
      · exact h.held x hx
      · rw [List.mem_singleton.mp hx]
        rfl
    · show _ ++ texts s.memory (_ ++ _) = _
      rw [hwaiting, texts_append, ← List.append_assoc, h.order]
      exact List.append_nil _
  | sendHere =>
    refine ⟨hgood, h.held, ?_⟩
    show foreign (s.entered ++ _) ++ _ = _
    rw [foreign_append, show foreign [(none, _)] = ([] : List (ι × Bytes)) from rfl, List.append_nil]
    exact h.order
  | handlewrite => exact ⟨hgood, h.held, h.order⟩
  | shutdown => exact ⟨hgood, h.held, h.order⟩
  | @store str text =>
    refine ⟨hgood, fun x hx => ?_, ?_⟩
    · exact (held_update (hkeeps x hx) text).trans (h.held x hx)
    · show _ ++ texts _ s.waiting = _
      rw [texts_update hkeeps]
      exact h.order
  | run hq hwaiting =>
    refine ⟨hgood, fun x hx => h.held x (hwaiting ▸ List.mem_cons_of_mem _ hx), ?_⟩
    show foreign (s.entered ++ _) ++ texts s.memory (_ ++ _) = _
    rw [← h.order, hwaiting, texts_cons, foreign_append, foreign_arrived, List.append_assoc]

/-! ### Steps and runs -/

variable [DecidableEq ι]

/-- The next functor finds its text. -/
def Finds (s : SendLoop ι) : SendEvent ι → Prop
  | .run _ => ∀ x ∈ s.threads.loop.temp.head?, x.2.held s.memory = true
  | _ => True

/-- The loop has taken the functor `x`. -/
def took (s : SendLoop ι) (x : ι × SendCall) (xs : List (ι × SendCall)) : SendLoop ι :=
  { s with threads := { s.threads with
      loop := { s.threads.loop with temp := xs }, executed := s.threads.executed ++ [x] } }

variable {x : ι × SendCall} {xs : List (ι × SendCall)} {n : ℕ}

theorem step_late (h : ev.late s) : sendLoop.step s ev = .error .dangling := if_pos h

theorem step_perform (h : ¬ev.late s) : sendLoop.step s ev = s.perform ev := if_neg h

omit [DecidableEq ι] in
/-- Functors are run while the loop is there. -/
theorem not_late_run (hpc : s.threads.pc = .pend) : ¬(SendEvent.run n).late s := by
  rintro ⟨hended, -⟩
  rw [hpc] at hended
  cases hended

/-- The next functor is taken and called. -/
theorem run_eq (hxs : s.threads.loop.temp = x :: xs) :
    s.perform (.run n) = (s.took x xs).call x.1 n x.2 := by
  unfold perform looper
  dsimp only
  rw [hxs]
  rfl

/-- The next functor has its text. -/
theorem run_spec (h : s.session.OutGood) (hxs : s.threads.loop.temp = x :: xs) (hn : n ≤ x.2.len)
    (hheld : x.2.held s.memory = true) : ∃ u, s.perform (.run n) =
      .ok { s.took x xs with session := u, entered := s.entered ++ arrived s.memory [x] } ∧ u.OutGood ∧
      u.queued = s.session.queued ++ ((texts s.memory [x]).map Prod.snd).flatten := by
  rw [run_eq hxs]
  exact call_spec (s := s.took x xs) h hn hheld x.1

theorem run_dangling (hxs : s.threads.loop.temp = x :: xs) (hheld : x.2.held s.memory ≠ true) :
    s.perform (.run n) = .error .dangling := by
  rw [run_eq hxs]
  exact call_dangling (s := s.took x xs) hheld x.1

omit [DecidableEq ι] in
theorem offer_eq (hxs : s.threads.loop.temp = x :: xs) :
    s.offer = x.2.len := by
  unfold offer
  rw [hxs]
  rfl

/-- While the loop is there, a step fails only at a functor whose text is not. -/
theorem perform_spec (h : s.Good) (hg : sendLoop.guard s ev) :
    (s.Finds ev ∧ ∃ t, s.perform ev = .ok t ∧ s.Moved ev t) ∨
      (¬s.Finds ev ∧ s.perform ev = .error .dangling) := by
  have push : ∀ {i}, looper.guard s.threads (.push i .other) → ∀ f, ∃ l,
      looper.step s.threads (.push i f) = .ok l ∧ l.Queued ∧
        l.loop.temp ++ l.loop.pendfunclists_ = s.waiting ++ [(i, f)] := fun {i} hg f =>
    have hg : looper.guard s.threads (.push i f) := hg
    ⟨_, rfl, looper_step h.queue hg rfl, (List.append_assoc _ _ _).symm⟩
  cases ev with
  | loop ev =>
    obtain ⟨l, hl, hq, -, -, hwaiting, -⟩ := looper_besides h.queue hg.1 hg.2
    refine .inl ⟨trivial, _, ?_, .loop hq hwaiting⟩
    show (looper.step s.threads ev >>= _) = _
    rw [hl]
    rfl
  | send i str len =>
    obtain ⟨text, htext⟩ := Option.isSome_iff_exists.mp hg.2
    obtain ⟨l, hl, hq, hwaiting⟩ := push hg.1 (.sendinloop str len)
    refine .inl ⟨trivial, _, ?_, .send htext hq hwaiting⟩
    show (looper.step s.threads (.push i (.sendinloop str len)) >>= _) = _
    rw [hl, htext]
    rfl
  | queue i =>
    obtain ⟨l, hl, hq, hwaiting⟩ := push hg .other
    refine .inl ⟨trivial, _, ?_, .queue hq hwaiting⟩
    show (looper.step s.threads (.push i .other) >>= _) = _
    rw [hl]
    rfl
  | sendHere str len n =>
    obtain ⟨text, htext⟩ := Option.isSome_iff_exists.mp hg.2.1
    obtain ⟨u, hu, hgood, hqueued⟩ := sendinloop_spec h.out htext hg.2.2 none
    exact .inl ⟨trivial, _, hu, .sendHere hgood hqueued⟩
  | handlewrite n =>
    obtain ⟨u, hu, hgood, hqueued⟩ := output_spec h.out (e := .handlewrite (some n)) ⟨rfl, hg.2⟩ rfl
    refine .inl ⟨trivial, _, ?_, .handlewrite hgood hqueued⟩
    show (output.step s.session (.handlewrite (some n)) >>= _) = _
    rw [hu]
    rfl
  | shutdown =>
    obtain ⟨u, hu, hgood, hqueued⟩ := output_spec h.out (e := .shutdown) ⟨rfl, trivial⟩ rfl
    refine .inl ⟨trivial, _, ?_, .shutdown hgood hqueued⟩
    show (output.step s.session .shutdown >>= _) = _
    rw [hu]
    rfl
  | store str text => exact .inl ⟨trivial, _, rfl, .store⟩
  | run n =>
    obtain ⟨x, xs, hxs⟩ := List.exists_cons_of_ne_nil hg.1.2
    have hfinds : s.Finds (.run n) ↔ x.2.held s.memory = true := by
      show (∀ y ∈ s.threads.loop.temp.head?, _) ↔ _
      rw [hxs]
      simp
    have hlooper : looper.step s.threads .run = .ok (s.took x xs).threads := by
      unfold looper
      dsimp only
      rw [hxs]
      rfl
    have hq := looper_step h.queue hg.1 hlooper
    have hwaiting : s.waiting = x :: (xs ++ s.threads.loop.pendfunclists_) := by
      unfold waiting
      rw [hxs]
      rfl
    rw [hfinds]
    by_cases hheld : x.2.held s.memory = true
    · obtain ⟨u, hu, hgood, hqueued⟩ := run_spec h.out hxs (offer_eq hxs ▸ hg.2) hheld
      exact .inl ⟨hheld, _, hu, .run hq hwaiting hheld hgood hqueued⟩
    · exact .inr ⟨hheld, run_dangling hxs hheld⟩

/-- **A step of the thread of the loop or of another**: it fails only where the loop is gone, or at a functor
whose text is. -/
theorem send_loop_step (h : s.Good) (hg : sendLoop.guard s ev) :
    (¬ev.late s ∧ s.Finds ev ∧ ∃ t, sendLoop.step s ev = .ok t ∧ s.Moved ev t) ∨
      ((ev.late s ∨ ¬s.Finds ev) ∧ sendLoop.step s ev = .error .dangling) := by
  by_cases hlate : ev.late s
  · exact .inr ⟨.inl hlate, step_late hlate⟩
  · rw [step_perform hlate]
    obtain ⟨hfinds, hstep⟩ | ⟨hfinds, herror⟩ := perform_spec h hg
    · exact .inl ⟨hlate, hfinds, hstep⟩
    · exact .inr ⟨.inr hfinds, herror⟩

theorem moved_of_step (h : s.Good) (hg : sendLoop.guard s ev) (ht : sendLoop.step s ev = .ok t) : s.Moved ev t := by
  obtain ⟨-, -, u, hu, hmoved⟩ | ⟨-, herror⟩ := send_loop_step h hg
  · rw [ht, Except.ok.injEq] at hu
    exact hu ▸ hmoved
  · rw [ht] at herror
    cases herror

theorem good_of_run {fd : Int} {cap : ℕ} {memory : ℕ → Option Bytes} {es : List (SendEvent ι)}
    (h : sendLoop.Run (start fd cap memory) es s) : s.Good :=
  h.invariant (fun hs hg ht => hs.moved (moved_of_step hs hg ht)) (start_good fd cap memory)

theorem kept_of_run {fd : Int} {cap : ℕ} {memory : ℕ → Option Bytes} {es : List (SendEvent ι)}
    (h : keptLoop.Run (start fd cap memory) es s) : s.Kept :=
  h.invariant (fun hs hg ht => hs.moved (moved_of_step hs.good hg.1 ht) hg.2.1) (start_kept fd cap memory)

/-- `dopendfunc` calls its functors one after the other. -/
theorem rounds_iff : ∀ {ns : List ℕ} {s : SendLoop ι}, s.Good → s.threads.pc = .pend →
    List.Forall₂ (fun x n => n ≤ x.2.len) s.threads.loop.temp ns →
    ((∃ t, sendLoop.Run s (ns.map .run) t) ↔ ∀ x ∈ s.threads.loop.temp, x.2.held s.memory = true) ∧
      ∀ t, sendLoop.Run s (ns.map .run) t → t.threads.loop.temp = [] ∧
        t.entered = s.entered ++ arrived s.memory s.threads.loop.temp
  | [], s, _, _, hns => by
    have htemp := List.forall₂_nil_right_iff.mp hns
    rw [htemp]
    refine ⟨⟨fun _ x hx => absurd hx List.not_mem_nil, fun _ => ⟨s, .nil s⟩⟩, fun t ht => ?_⟩
    cases ht
    exact ⟨htemp, (List.append_nil _).symm⟩
  | n :: ns, s, h, hpc, hns => by
    obtain ⟨x, xs, hn, hns, hxs⟩ := List.forall₂_cons_right_iff.mp hns
    have hg : sendLoop.guard s (.run n) :=
      ⟨⟨hpc, hxs ▸ List.cons_ne_nil x xs⟩, offer_eq hxs ▸ hn⟩
    rw [hxs]
    have hstep : sendLoop.step s (.run n) = s.perform (.run n) := step_perform (not_late_run hpc)
    by_cases hheld : x.2.held s.memory = true
    · obtain ⟨u, hu, -⟩ := run_spec h.out hxs hn hheld
      rw [← hstep] at hu
      obtain ⟨hiff, hafter⟩ := rounds_iff (h.moved (moved_of_step h hg hu)) hpc hns
      constructor
      · rw [List.forall_mem_cons, and_iff_right hheld]
        refine Iff.trans ?_ hiff
        constructor
        · rintro ⟨t, ht⟩
          cases ht with
          | cons _ hs ht =>
            rw [hu, Except.ok.injEq] at hs
            exact ⟨t, hs ▸ ht⟩
        · rintro ⟨t, ht⟩
          exact ⟨t, .cons hg hu ht⟩
      · intro t ht
        cases ht with
        | cons _ hs ht =>
          rw [hu, Except.ok.injEq] at hs
          obtain ⟨htemp, hentered⟩ := hafter t (hs ▸ ht)
          refine ⟨htemp, hentered.trans ?_⟩
          show s.entered ++ _ ++ arrived s.memory xs = _
          rw [List.append_assoc]
          unfold arrived
          rw [← List.map_append, ← texts_cons]
    · have hstuck : ∀ t, ¬sendLoop.Run s (.run n :: ns.map .run) t := by
        rintro t (_ | ⟨_, hs, -⟩)
        rw [hstep, run_dangling hxs hheld] at hs
        cases hs
      exact ⟨⟨fun ⟨t, ht⟩ => absurd ht (hstuck t), fun hall => absurd (hall x List.mem_cons_self) hheld⟩,
        fun t ht => absurd ht (hstuck t)⟩

end SendLoop

section

variable {ι : Type} [DecidableEq ι] {fd : Int} {cap : ℕ} {memory : ℕ → Option Bytes} {es : List (SendEvent ι)}
  {s : SendLoop ι}

end

/-- Two threads send while the loop sends a text of its own, of which the kernel takes a part; then both
functors are run. -/
def sending : List (SendEvent ℕ) :=
  [.loop .publish, .loop .started, .loop .enter, .loop .init, .loop .test, .send 1 10 3, .loop (.wake 1),
    .loop (.poll true), .loop .handlread, .send 2 20 2, .sendHere 30 4 1, .loop .swap, .run 0]

/-- The texts of the three threads. -/
def threeTexts : ℕ → Option Bytes
  | 10 => some (bytes "abc")
  | 20 => some (bytes "de")
  | 30 => some (bytes "here")
  | _ => none

/-- A thread is between the two halves of its `quit` when the loop returns. -/
def quitting : List (SendEvent ℕ) :=
  [.loop .publish, .loop .started, .loop .enter, .loop .init, .loop (.quit 1), .loop .test, .loop .leave]

-- its `wake` finds no loop
example : (sendLoop.exec (start 7 4 threeTexts) quitting).map (fun s =>
    decide ((SendEvent.loop (.wake 1)).late s)) = some true := by
  decide +kernel

/-- The second thread reuses its text, the first releases its own, before the loop has run a functor. -/
def touching : List (SendEvent ℕ) :=
  [.loop .publish, .loop .started, .loop .enter, .loop .init, .loop .test, .send 2 20 2, .loop (.wake 2),
    .store 20 (some (bytes "XYZ")), .loop (.poll true), .loop .handlread, .send 1 10 3, .store 10 none, .loop .swap]

end MuduoSe
