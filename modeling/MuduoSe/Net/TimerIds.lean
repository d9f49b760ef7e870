/-
# The ids of timers that many threads add

`addTimeNode` constructs a node, whose index is the next value of the process-wide counter
`size_`, hands it to the loop, and then reads `size_` again to build the id. A `Process` is any
number of loops, each with its timers, and any number of threads calling `addTimeNode` of any of
them; the steps of the calls and of the loops come in any order.

* `ids_match_iff`: all ids that were returned name their timers if and only if no thread has
  constructed a node between a call's construction and its reading of `size_`; and an id finds
  its waiting timer in `indexlist_` if and only if its index is the timer's.
* `race_misnames`: two threads, one of which gets the id of no timer.

Key definitions: `process`, `Undisturbed`.
Key theorems: `process_loops`, `calls_history`, `ids_match_iff`.
-/
import Mathlib.Data.Fintype.Basic
import MuduoSe.Net.TimerRuns

namespace MuduoSe

/-- A call of `addTimeNode` that has constructed its node. -/
structure Call (κ : Type) where
  loop : κ
  newnode : Addr
  /-- `newnode->index()` -/
  index_ : Int
  /-- `runinloop` was called. -/
  handed : Bool

/-- What a call of `addTimeNode` has returned, and the index of its node. -/
structure Returned (κ : Type) where
  loop : κ
  id : TimeId
  index_ : Int

/-- The loops `κ` and the threads `ι` of a process. -/
structure Process (ι κ : Type) where
  loops : κ → Timers
  call : ι → Option (Call κ)
  returned : List (Returned κ)

def Process.start {ι κ : Type} (size : Int) : Process ι κ :=
  ⟨fun _ => .start size, fun _ => none, []⟩

inductive ProcessEvent (ι κ : Type)
  /-- `new timenode(f, when, interval)` -/
  | construct (i : ι) (k : κ) (p : Addr) (when : Time) (interval : Int)
  /-- `runinloop` -/
  | handOver (i : ι)
  /-- `return timeId(newnode, newnode->size())` -/
  | ret (i : ι)
  /-- A step of a loop. -/
  | loop (k : κ) (ev : TimerEvent)

/-- A step of the loop itself. -/
def TimerEvent.inLoop : TimerEvent → Bool
  | .construct _ _ _ | .other => false
  | _ => true

/-- The node that is added. -/
def TimerEvent.adds : TimerEvent → Option Addr
  | .add t _ => some t
  | _ => none

def ProcessEvent.isConstruct {ι κ : Type} : ProcessEvent ι κ → Bool
  | .construct _ _ _ _ _ => true
  | _ => false

section

/-! ### Calls -/

/-- A call of thread `i` is under way; since it constructed its node `p`, for the loop `k`, `n` more
were constructed. -/
def Under {ι κ : Type} (es : List (ProcessEvent ι κ)) (i : ι) (k : κ) (p : Addr) (n : ℕ) : Prop :=
  ∃ es₁ es₂ when interval, es = es₁ ++ .construct i k p when interval :: es₂ ∧
    .ret i ∉ es₂ ∧ es₂.countP ProcessEvent.isConstruct = n

/-- A call has returned; between its construction and its return `n` more nodes were constructed. -/
def Done {ι κ : Type} (es : List (ProcessEvent ι κ)) (k : κ) (p : Addr) (n : ℕ) : Prop :=
  ∃ es₁ i es₂ es₃ when interval, es = es₁ ++ .construct i k p when interval :: (es₂ ++ .ret i :: es₃) ∧
    .ret i ∉ es₂ ∧ es₂.countP ProcessEvent.isConstruct = n

variable {ι κ : Type} {es : List (ProcessEvent ι κ)} {e : ProcessEvent ι κ} {i : ι} {k : κ} {p : Addr} {n : ℕ}

/-- The last of some events is the one in the middle, or it is behind it. -/
theorem append_eq_split {α : Type} {xs ys zs : List α} {x y : α} :
    xs ++ [x] = ys ++ y :: zs ↔
      (xs = ys ∧ x = y ∧ zs = []) ∨ ∃ zs', zs = zs' ++ [x] ∧ xs = ys ++ y :: zs' := by
  rcases List.eq_nil_or_concat zs with rfl | ⟨zs', z, rfl⟩
  · rw [List.append_singleton_inj]
    simp
  · rw [List.concat_eq_append, ← List.cons_append, ← List.append_assoc, List.append_singleton_inj]
    constructor
    · rintro ⟨hxs, rfl⟩
      exact .inr ⟨zs', rfl, hxs⟩
    · rintro (⟨-, -, hnil⟩ | ⟨ws, hws, hxs⟩)
      · exact absurd hnil (by simp)
      · obtain ⟨rfl, rfl⟩ := List.append_singleton_inj.mp hws
        exact ⟨hxs, rfl⟩

theorem under_append : Under (es ++ [e]) i k p n ↔
    ((∃ when interval, e = .construct i k p when interval) ∧ n = 0) ∨
      e ≠ .ret i ∧ ∃ m, Under es i k p m ∧ n = m + if e.isConstruct then 1 else 0 := by
  unfold Under
  constructor
  · rintro ⟨es₁, es₂, when, interval, hes, hret, rfl⟩
    rcases append_eq_split.mp hes with ⟨-, rfl, rfl⟩ | ⟨es₂, rfl, rfl⟩
    · exact .inl ⟨⟨when, interval, rfl⟩, rfl⟩
    · rw [List.mem_append, List.mem_singleton, not_or] at hret
      refine .inr ⟨fun he => hret.2 he.symm, _, ⟨es₁, es₂, when, interval, rfl, hret.1, rfl⟩, ?_⟩
      rw [List.countP_append, List.countP_singleton]
  · rintro (⟨⟨when, interval, rfl⟩, rfl⟩ | ⟨he, m, ⟨es₁, es₂, when, interval, rfl, hret, rfl⟩, rfl⟩)
    · exact ⟨es, [], when, interval, rfl, List.not_mem_nil, rfl⟩
    · refine ⟨es₁, es₂ ++ [e], when, interval, ?_, ?_, ?_⟩
      · rw [List.append_assoc, List.cons_append]
      · rw [List.mem_append, List.mem_singleton, not_or]
        exact ⟨hret, fun heq => he heq.symm⟩
      · rw [List.countP_append, List.countP_singleton]

/-- An event that constructs nothing, and is not the call's return. -/
theorem under_frame (he : e.isConstruct = false) (hret : e ≠ .ret i) :
    Under (es ++ [e]) i k p n ↔ Under es i k p n := by
  rw [under_append, he]
  have hno : ¬∃ when interval, e = .construct i k p when interval := by
    rintro ⟨when, interval, rfl⟩
    cases he
  simp [hno, hret]

theorem done_append : Done (es ++ [e]) k p n ↔ Done es k p n ∨ ∃ i, e = .ret i ∧ Under es i k p n := by
  unfold Done Under
  constructor
  · rintro ⟨es₁, i, es₂, es₃, when, interval, hes, hret, hn⟩
    rw [← List.cons_append, ← List.append_assoc] at hes
    rcases append_eq_split.mp hes with ⟨rfl, rfl, rfl⟩ | ⟨es₃, rfl, rfl⟩
    · exact .inr ⟨i, rfl, es₁, es₂, when, interval, rfl, hret, hn⟩
    · refine .inl ⟨es₁, i, es₂, es₃, when, interval, ?_, hret, hn⟩
      rw [List.append_assoc, List.cons_append]
  · rintro (⟨es₁, i, es₂, es₃, when, interval, rfl, hret, hn⟩ |
      ⟨i, rfl, es₁, es₂, when, interval, rfl, hret, hn⟩)
    · refine ⟨es₁, i, es₂, es₃ ++ [e], when, interval, ?_, hret, hn⟩
      simp only [List.append_assoc, List.cons_append]
    · refine ⟨es₁, i, es₂, [], when, interval, ?_, hret, hn⟩
      rw [List.append_assoc, List.cons_append]

/-- An event that is no return. -/
theorem done_frame (he : ∀ i, e ≠ .ret i) : Done (es ++ [e]) k p n ↔ Done es k p n := by
  rw [done_append]
  simp [he]

/-- How far the counter is from the index of a call's node. -/
structure Counted {ι κ : Type} (es : List (ProcessEvent ι κ)) (s : Process ι κ) : Prop where
  size : ∀ k l, (s.loops k).queue.size_ = (s.loops l).queue.size_
  index_le : ∀ i, ∀ c ∈ s.call i, c.index_ ≤ (s.loops c.loop).queue.size_
  under : ∀ i k p n, Under es i k p n ↔ ∃ c ∈ s.call i, c.loop = k ∧ c.newnode = p ∧
    (s.loops k).queue.size_ = c.index_ + n
  done : ∀ k p n, Done es k p n ↔ ∃ r ∈ s.returned, r.loop = k ∧ r.id.own_timenode_ = p ∧
    r.id.index_ = r.index_ + n
  returned_le : ∀ r ∈ s.returned, r.index_ ≤ r.id.index_

theorem start_counted (size : Int) : Counted [] (Process.start size : Process ι κ) := by
  refine ⟨fun _ _ => rfl, ?_, ?_, ?_, fun _ hr => absurd hr List.not_mem_nil⟩
  · rintro i c ⟨⟩
  · intro i k p n
    constructor
    · rintro ⟨es₁, es₂, when, interval, hes, -⟩
      simp at hes
    · rintro ⟨c, ⟨⟩, -⟩
  · intro k p n
    constructor
    · rintro ⟨es₁, i, es₂, es₃, when, interval, hes, -⟩
      simp at hes
    · rintro ⟨r, hr, -⟩
      exact absurd hr List.not_mem_nil

variable {s t : Process ι κ}

/-- A step that leaves the counter, the nodes of the calls and what was returned as they are. -/
theorem Counted.frame (h : Counted es s) {e : ProcessEvent ι κ} (he : e.isConstruct = false)
    (hret : ∀ i, e ≠ .ret i) (hsize : ∀ k, (t.loops k).queue.size_ = (s.loops k).queue.size_)
    (hcall : ∀ i, ∀ c ∈ t.call i, ∃ c' ∈ s.call i, c'.loop = c.loop ∧ c'.newnode = c.newnode ∧
      c'.index_ = c.index_)
    (hcall' : ∀ i, ∀ c ∈ s.call i, ∃ c' ∈ t.call i, c'.loop = c.loop ∧ c'.newnode = c.newnode ∧
      c'.index_ = c.index_)
    (hreturned : t.returned = s.returned) : Counted (es ++ [e]) t := by
  refine ⟨?_, ?_, ?_, ?_, hreturned ▸ h.returned_le⟩
  · intro k l
    rw [hsize, hsize, h.size k l]
  · intro i c hc
    obtain ⟨c', hc', hl, -, hi⟩ := hcall i c hc
    rw [hsize, ← hl, ← hi]
    exact h.index_le i c' hc'
  · intro i k p n
    rw [under_frame he (hret i), h.under, hsize]
    constructor
    · rintro ⟨c, hc, rfl, rfl, hn⟩
      obtain ⟨c', hc', hl, hp, hi⟩ := hcall' i c hc
      exact ⟨c', hc', hl, hp, hi.symm ▸ hn⟩
    · rintro ⟨c, hc, rfl, rfl, hn⟩
      obtain ⟨c', hc', hl, hp, hi⟩ := hcall i c hc
      exact ⟨c', hc', hl, hp, hi.symm ▸ hn⟩
  · intro k p n
    rw [done_frame hret, hreturned]
    exact h.done k p n

end

/-! ### The steps of a process -/

section

variable {ι κ : Type} [DecidableEq ι] [DecidableEq κ]

/-- The calls of `addTimeNode` and the loops. -/
def process : System (Process ι κ) (ProcessEvent ι κ) Fault where
  guard s
    | .construct i _ p _ _ => s.call i = none ∧ p ≠ 0 ∧ ∀ l, p ∉ (s.loops l).queue.heap
    | .handOver i => ∃ c ∈ s.call i, c.handed = false
    | .ret i => ∃ c ∈ s.call i, c.handed = true
    | .loop k ev => ev.inLoop = true ∧ timers.guard (s.loops k) ev ∧
      ∀ i, ∀ c ∈ s.call i, c.handed = false → ev.adds ≠ some c.newnode
  step s
    | .construct i k p when interval =>
      .ok { s with
        loops := fun l =>
          if l = k then { s.loops l with
            queue := (s.loops l).queue.newTimeNode p when interval
            pending := p :: (s.loops l).pending }
          else { s.loops l with
            queue := { (s.loops l).queue with size_ := (s.loops l).queue.size_ + 1 } }
        call := Function.update s.call i (some ⟨k, p, (s.loops k).queue.size_ + 1, false⟩) }
    | .handOver i =>
      .ok { s with call := Function.update s.call i ((s.call i).map ({ · with handed := true })) }
    | .ret i =>
      match s.call i with
      | some c =>
        .ok { s with
          call := Function.update s.call i none
          returned := ⟨c.loop, ⟨c.newnode, (s.loops c.loop).queue.size_⟩, c.index_⟩ :: s.returned }
      | none => .error .dangling
    | .loop k ev => do
      let t ← timers.step (s.loops k) ev
      return { s with loops := Function.update s.loops k t }

instance [Fintype ι] [Fintype κ] (s : Process ι κ) :
    (ev : ProcessEvent ι κ) → Decidable (process.guard s ev)
  | .construct _ _ _ _ _ => inferInstanceAs (Decidable (_ ∧ _ ∧ ∀ _, _))
  | .handOver _ | .ret _ => inferInstanceAs (Decidable (∃ _, _))
  | .loop _ _ => inferInstanceAs (Decidable (_ ∧ _ ∧ ∀ _, _))

/-! ### The loops of a process -/

/-- A step of the loop does not construct. -/
theorem Timers.Good.size_same {s t : Timers} (h : s.Good) {ev : TimerEvent} (hev : ev.inLoop = true)
    (hg : timers.guard s ev) (hs : timers.step s ev = .ok t) : t.queue.size_ = s.queue.size_ := by
  obtain ⟨hmoved, -⟩ := h.moved hg hs
  cases hmoved with
  | construct => cases hev
  | other => cases hev
  | beginRead _ _ _ hsize _ => exact hsize
  | endRead _ _ hflash => exact hflash.size
  | _ => rfl

/-- **Each loop of a process runs as the timers of one loop do.** -/
theorem process_loops {size : Int} {es : List (ProcessEvent ι κ)} {s : Process ι κ}
    (h : process.Run (.start size) es s) (k : κ) :
    ∃ fs, timers.Run (.start size) fs (s.loops k) := by
  revert k
  refine h.invariant (I := fun s => ∀ k, ∃ fs, timers.Run (.start size) fs (s.loops k)) ?_ ?_
  · intro s t ev hi hg hs k
    obtain ⟨fs, hfs⟩ := hi k
    cases ev with
    | construct i l p when interval =>
      cases hs
      dsimp only
      split_ifs with hk
      · subst hk
        have hguard : timers.guard (s.loops k)
            (.construct ⟨p, (s.loops k).queue.size_ + 1⟩ when interval) := ⟨hg.2.1, hg.2.2 k, rfl⟩
        exact ⟨_, hfs.append (.single hguard rfl)⟩
      · have hguard : timers.guard (s.loops k) .other := trivial
        exact ⟨_, hfs.append (.single hguard rfl)⟩
    | handOver i =>
      cases hs
      exact ⟨fs, hfs⟩
    | ret i =>
      obtain ⟨c, hc, -⟩ := hg
      unfold process at hs
      dsimp only at hs
      rw [show s.call i = some c from hc] at hs
      cases hs
      exact ⟨fs, hfs⟩
    | loop l ev =>
      obtain ⟨t, ht, hs⟩ := bind_ok hs
      cases hs
      dsimp only
      by_cases hk : k = l
      · subst hk
        rw [Function.update_self]
        exact ⟨_, hfs.append (.single hg.2.1 ht)⟩
      · rw [Function.update_of_ne hk]
        exact ⟨fs, hfs⟩
  · intro k
    exact ⟨[], .nil _⟩

/-! ### Every run of a process -/

variable {es : List (ProcessEvent ι κ)} {s t : Process ι κ} {i : ι}

theorem Counted.construct (h : Counted es s) {k : κ} {p : Addr} {when : Time} {interval : Int}
    (hg : process.guard s (.construct i k p when interval))
    (hs : process.step s (.construct i k p when interval) = .ok t) :
    Counted (es ++ [.construct i k p when interval]) t := by
  have hsize : ∀ l, (t.loops l).queue.size_ = (s.loops l).queue.size_ + 1 := by
    intro l
    cases hs
    dsimp only
    split_ifs
    · rfl
    · rfl
  have hcall : t.call = Function.update s.call i
      (some ⟨k, p, (s.loops k).queue.size_ + 1, false⟩) := by
    cases hs
    rfl
  have hreturned : t.returned = s.returned := by
    cases hs
    rfl
  refine ⟨?_, ?_, ?_, ?_, hreturned ▸ h.returned_le⟩
  · intro l m
    rw [hsize, hsize, h.size l m]
  · intro j c hc
    rw [hsize]
    rw [hcall] at hc
    by_cases hj : j = i
    · subst hj
      rw [Function.update_self] at hc
      cases hc
      exact le_refl _
    · rw [Function.update_of_ne hj] at hc
      have := h.index_le j c hc
      omega
  · intro j l q n
    rw [under_append, hsize, hcall]
    by_cases hj : j = i
    · subst hj
      have hno : ∀ m, ¬Under es j l q m := by
        intro m
        rw [h.under, hg.1]
        rintro ⟨c, ⟨⟩, -⟩
      rw [Function.update_self, h.size l k]
      constructor
      · rintro (⟨⟨when, interval, heq⟩, rfl⟩ | ⟨-, m, hm, -⟩)
        · cases heq
          exact ⟨_, rfl, rfl, rfl, (Int.add_zero _).symm⟩
        · exact absurd hm (hno m)
      · rintro ⟨c, ⟨⟩, rfl, rfl, hn⟩
        refine .inl ⟨⟨when, interval, rfl⟩, ?_⟩
        dsimp only at hn
        omega
    · rw [Function.update_of_ne hj]
      constructor
      · rintro (⟨⟨when, interval, heq⟩, -⟩ | ⟨-, m, hm, rfl⟩)
        · cases heq
          exact absurd rfl hj
        · obtain ⟨c, hc, rfl, rfl, hn⟩ := (h.under _ _ _ _).mp hm
          refine ⟨c, hc, rfl, rfl, ?_⟩
          show _ = c.index_ + ((m + 1 : ℕ) : Int)
          omega
      · rintro ⟨c, hc, rfl, rfl, hn⟩
        have hle := h.index_le j c hc
        obtain ⟨m, rfl⟩ : ∃ m, n = m + 1 := ⟨n - 1, by omega⟩
        refine .inr ⟨by simp, m, (h.under _ _ _ _).mpr ⟨c, hc, rfl, rfl, ?_⟩, rfl⟩
        push_cast at hn
        omega
  · intro l q n
    rw [done_frame (fun j => by simp), hreturned]
    exact h.done l q n

theorem Counted.handOver (h : Counted es s) (hs : process.step s (.handOver i) = .ok t) :
    Counted (es ++ [.handOver i]) t := by
  cases hs
  refine h.frame rfl (fun j => by simp) (fun _ => rfl) ?_ ?_ rfl
  · intro j c hc
    dsimp only at hc
    by_cases hj : j = i
    · subst hj
      rw [Function.update_self] at hc
      obtain ⟨c', hc', rfl⟩ := Option.map_eq_some_iff.mp hc
      exact ⟨c', hc', rfl, rfl, rfl⟩
    · rw [Function.update_of_ne hj] at hc
      exact ⟨c, hc, rfl, rfl, rfl⟩
  · intro j c hc
    dsimp only
    by_cases hj : j = i
    · subst hj
      rw [Function.update_self]
      exact ⟨_, Option.mem_map_of_mem _ hc, rfl, rfl, rfl⟩
    · rw [Function.update_of_ne hj]
      exact ⟨c, hc, rfl, rfl, rfl⟩

theorem Counted.loop (h : Counted es s) {k : κ} {ev : TimerEvent} (hgood : (s.loops k).Good)
    (hg : process.guard s (.loop k ev)) (hs : process.step s (.loop k ev) = .ok t) :
    Counted (es ++ [.loop k ev]) t := by
  obtain ⟨u, hu, hs⟩ := bind_ok hs
  cases hs
  refine h.frame rfl (fun j => by simp) ?_ (fun j c hc => ⟨c, hc, rfl, rfl, rfl⟩)
    (fun j c hc => ⟨c, hc, rfl, rfl, rfl⟩) rfl
  intro l
  dsimp only
  by_cases hl : l = k
  · subst hl
    rw [Function.update_self]
    exact hgood.size_same hg.1 hg.2.1 hu
  · rw [Function.update_of_ne hl]

theorem Counted.ret (h : Counted es s) (hg : process.guard s (.ret i))
    (hs : process.step s (.ret i) = .ok t) : Counted (es ++ [.ret i]) t := by
  obtain ⟨c, hc, -⟩ := hg
  have hc : s.call i = some c := hc
  unfold process at hs
  dsimp only at hs
  rw [hc] at hs
  cases hs
  refine ⟨h.size, ?_, ?_, ?_, ?_⟩
  · intro j d hd
    dsimp only at hd
    by_cases hj : j = i
    · subst hj
      rw [Function.update_self] at hd
      cases hd
    · rw [Function.update_of_ne hj] at hd
      exact h.index_le j d hd
  · intro j k p n
    dsimp only
    by_cases hj : j = i
    · subst hj
      rw [Function.update_self, under_append]
      simp
    · rw [Function.update_of_ne hj, under_frame rfl (fun heq => hj (by cases heq; rfl))]
      exact h.under j k p n
  · intro k p n
    rw [done_append, h.done]
    constructor
    · rintro (⟨r, hr, hrest⟩ | ⟨j, heq, hu⟩)
      · exact ⟨r, List.mem_cons_of_mem _ hr, hrest⟩
      · cases heq
        obtain ⟨c', hc', rfl, rfl, hn⟩ := (h.under _ _ _ _).mp hu
        obtain rfl : c = c' := Option.some.inj (hc.symm.trans hc')
        exact ⟨_, List.mem_cons_self, rfl, rfl, hn⟩
    · rintro ⟨r, hr, rfl, rfl, hn⟩
      rcases List.mem_cons.mp hr with rfl | hr
      · exact .inr ⟨i, rfl, (h.under _ _ _ _).mpr ⟨c, hc, rfl, rfl, hn⟩⟩
      · exact .inl ⟨r, hr, rfl, rfl, hn⟩
  · intro r hr
    rcases List.mem_cons.mp hr with rfl | hr
    · exact h.index_le i c hc
    · exact h.returned_le r hr

/-- **What has been returned, and what is still to be, counts the constructions in between.** -/
theorem calls_history {size : Int} (h : process.Run (.start size) es s) : Counted es s := by
  refine System.Run.history (P := Counted) (start_counted size) ?_ h
  intro es s e t hrun hP hg hs
  cases e with
  | construct i k p when interval => exact hP.construct hg hs
  | handOver i => exact hP.handOver hs
  | ret i => exact hP.ret hg hs
  | loop k ev =>
    obtain ⟨fs, hfs⟩ := process_loops hrun k
    exact hP.loop (timers_good hfs) hg hs

/-- No thread constructs a node while another's call is between its construction and its return. -/
def Undisturbed (es : List (ProcessEvent ι κ)) : Prop :=
  ∀ es₁ i k p when interval es₂ es₃,
    es = es₁ ++ .construct i k p when interval :: (es₂ ++ .ret i :: es₃) → .ret i ∉ es₂ →
      ∀ e ∈ es₂, ¬e.isConstruct

/-- **When the ids name their timers, and what a cancel with one finds.** -/
theorem ids_match_iff {size : Int} (h : process.Run (.start size) es s) :
    ((∀ r ∈ s.returned, r.id.index_ = r.index_) ↔ Undisturbed es) ∧
    ∀ r ∈ s.returned, ∀ n : TimeNode, (s.loops r.loop).queue.heap[r.id.own_timenode_]? = some n →
      n.index_ = r.index_ → (n.expiration_, r.id.own_timenode_) ∈ (s.loops r.loop).queue.list_ →
      (r.id.key ∈ (s.loops r.loop).queue.indexlist_ ↔ r.id.index_ = r.index_) := by
  have hcount := calls_history h
  constructor
  · constructor
    · intro hall es₁ i k p when interval es₂ es₃ hes hret
      obtain ⟨r, hr, -, -, hn⟩ :=
        (hcount.done k p _).mp ⟨es₁, i, es₂, es₃, when, interval, hes, hret, rfl⟩
      rw [hall r hr] at hn
      apply List.countP_eq_zero.mp
      omega
    · intro hund r hr
      have hle := hcount.returned_le r hr
      obtain ⟨es₁, i, es₂, es₃, when, interval, hes, hret, hn⟩ :=
        (hcount.done r.loop r.id.own_timenode_ (r.id.index_ - r.index_).toNat).mpr
          ⟨r, hr, rfl, rfl, by omega⟩
      rw [List.countP_eq_zero.mpr (hund es₁ i _ _ when interval es₂ es₃ hes hret)] at hn
      omega
  · intro r hr n hn hi hin
    obtain ⟨fs, hfs⟩ := process_loops h r.loop
    rw [show r.id.key = (r.id.index_, r.id.own_timenode_) from rfl, (timers_good hfs).index_iff]
    constructor
    · rintro ⟨m, hm, hmi, -⟩
      obtain rfl : n = m := Option.some.inj (hn.symm.trans hm)
      exact hmi.symm.trans hi
    · intro heq
      exact ⟨n, hn, hi.trans heq.symm, hin⟩

end

section

/-- The threads and the loops of the two runs are numerals. -/
local instance neZero_two : NeZero 2 := ⟨by decide⟩

/-- Two threads add a timer each, one call after the other. -/
def inTurn : List (ProcessEvent (Fin 2) (Fin 2)) :=
  [.construct 0 0 1 5000 0, .handOver 0, .ret 0, .loop 0 (.add 1 ⟨1000, 1001⟩), .construct 1 0 2 6000 0,
    .handOver 1, .ret 1]

theorem ids_match_iff_inTurn :
    ∃ s, process.Run (.start 0) inTurn s ∧ s.returned.length = 2 ∧ Undisturbed inTurn := by
  have hrun : ((process.exec (.start 0) inTurn).map fun s =>
      (s.returned.length, decide (∀ r ∈ s.returned, r.id.index_ = r.index_))) = some (2, true) := by
    decide +kernel
  obtain ⟨s, hs, hview⟩ := process.exec_map_iff.mp hrun
  obtain ⟨hlen, hall⟩ := Prod.mk.inj hview
  exact ⟨s, hs, hlen, (ids_match_iff hs).1.mp (of_decide_eq_true hall)⟩

/-- Two threads add timers to two loops; the first reads `size_` when the second has constructed
its node. -/
def race : List (ProcessEvent (Fin 2) (Fin 2)) :=
  [.construct 0 0 1 5000 0, .construct 1 1 2 6000 0, .handOver 0, .loop 0 (.add 1 ⟨1000, 1001⟩), .ret 0,
    .handOver 1, .ret 1]

/-- **The first thread gets an id that names no timer**: a cancel with it will not find the timer,
which waits. -/
theorem race_misnames : ∃ s, process.Run (.start 0) race s ∧
    ∃ r ∈ s.returned, r.id.index_ ≠ r.index_ ∧
      (5000, r.id.own_timenode_) ∈ (s.loops r.loop).queue.list_ ∧
      r.id.key ∉ (s.loops r.loop).queue.indexlist_ := by
  have hrun : ((process.exec (.start 0) race).map fun s =>
      decide (∃ r ∈ s.returned, r.id.index_ ≠ r.index_ ∧
        (5000, r.id.own_timenode_) ∈ (s.loops r.loop).queue.list_ ∧
        r.id.key ∉ (s.loops r.loop).queue.indexlist_)) = some true := by
    decide +kernel
  obtain ⟨s, hs, hview⟩ := process.exec_map_iff.mp hrun
  exact ⟨s, hs, of_decide_eq_true hview⟩

end

end MuduoSe
