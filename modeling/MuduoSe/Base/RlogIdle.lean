/-
# The logger when there is nothing to write

`rlog::persist` skips a buffer that is `empty()`; but `cell_buffer::empty` asks if the buffer has no
capacity, not if nothing was appended to it, and a buffer of the logger always has 30 MB. So when
`wait_for` times out, the persister takes the current buffer also if there is nothing in it, opens a
log file, writes what the memory of the buffer holds, and goes on to the next one.

* `idle_undisturbed_iff`: an idle logger stays as it is whatever the persister does, if and only if
  the loop of the persister has not begun, or has ended, or is about to end: no idle logger whose
  persister goes once more through its loop stays undisturbed.
* `idle_walks`: one timeout is enough.

Key definitions: `Rlog.Idle`, `Rlog.Undisturbed`, `Rlog.Stays`.
Key theorems: `taking_moves`, `idle_undisturbed_iff`.
-/
import MuduoSe.Base.RlogCycle

namespace MuduoSe

/-- It is not in the middle of persisting a buffer. -/
def Persister.idles : Persister → Bool
  | .deciding _ | .writing | .advancing => false
  | _ => true

/-- A step of `rlog::persist`. -/
def LogEvent.ofPersister {ι : Type} : LogEvent ι → Bool
  | .test | .lock | .wake | .take | .decis _ | .write _ | .advance => true
  | _ => false

section

variable {ι : Type}

namespace Rlog

/-- All lines have been persisted: no buffer is FULL, and nothing was appended to the current one. -/
structure Idle (s : Rlog ι) : Prop where
  free : ∀ p, s.ring.Made p → s.ring.status p = .FREE
  empty : (s.ring.buf s.ring.cur_buf).index_ = 0
  idles : s.persister.idles = true

/-- What is to be left as it is. -/
structure Unchanged (s t : Rlog ι) : Prop where
  cur : t.ring.cur_buf = s.ring.cur_buf
  prst : t.ring.prst_buf = s.ring.prst_buf
  status : ∀ p, t.ring.status p = s.ring.status p
  files : t.file.disk.files = s.file.disk.files

/-- The loop of the persister has not begun, or has ended, or is about to end. -/
def Stays (s : Rlog ι) : Prop :=
  s.persister = .absent ∨ s.persister = .exited ∨ s.persister = .top ∧ s.running = false

end Rlog

open Rlog

variable [DecidableEq ι] {raw : ℕ → ℕ → Byte} {localtime : ℕ → Tm} {s t : Rlog ι} {ev : LogEvent ι}

/-- After any number of iterations of `rlog::persist`, nothing has changed. -/
def Rlog.Undisturbed (raw : ℕ → ℕ → Byte) (localtime : ℕ → Tm) (s : Rlog ι) : Prop :=
  ∀ (fs : List (LogEvent ι)) (t : Rlog ι), (∀ ev ∈ fs, LogEvent.ofPersister ev = true) →
    (logger raw localtime).Run s fs t → t.persister.idles = true → s.Unchanged t

/-! ### The loop that does not go on -/

/-- A step of a persister that stays takes it out of its loop. -/
theorem stays_step (h : s.Stays) (hev : ev.ofPersister = true) (hg : (logger raw localtime).guard s ev)
    (hs : (logger raw localtime).step s ev = .ok t) : t.Stays ∧ s.Unchanged t := by
  cases ev with
  | test =>
    have hper : s.persister = .top := hg
    rcases h with h | h | ⟨-, hrun⟩
    · rw [hper] at h
      cases h
    · rw [hper] at h
      cases h
    · cases hs
      rw [hrun]
      exact ⟨.inr (.inl rfl), rfl, rfl, fun _ => rfl, rfl⟩
  | lock | wake | take | write _ | advance =>
    have hper : s.persister = _ := hg
    unfold Stays at h
    rw [hper] at h
    rcases h with h | h | ⟨h, -⟩ <;> cases h
  | decis ok =>
    obtain ⟨date, hper, -⟩ := decis_inv hg hs
    unfold Stays at h
    rw [hper] at h
    rcases h with h | h | ⟨h, -⟩ <;> cases h
  | init _ | store | enter _ _ _ | reset _ | append _ _ | dtor | join | flush _ _ => cases hev

theorem stays_run {fs : List (LogEvent ι)} (hr : (logger raw localtime).Run s fs t)
    (hfs : ∀ ev ∈ fs, LogEvent.ofPersister ev = true) (h : s.Stays) : s.Unchanged t := by
  induction hr with
  | nil => exact ⟨rfl, rfl, fun _ => rfl, rfl⟩
  | cons hg hs _ ih =>
    obtain ⟨hstays, hsame⟩ := stays_step h (hfs _ List.mem_cons_self) hg hs
    have hrest := ih (fun ev hev => hfs ev (List.mem_cons_of_mem _ hev)) hstays
    exact ⟨hrest.cur.trans hsame.cur, hrest.prst.trans hsame.prst,
      fun p => (hrest.status p).trans (hsame.status p), hrest.files.trans hsame.files⟩

/-! ### The loop that goes on -/

/-- The persister has `mutex_` and its buffer is FREE: the rest of the iteration. -/
theorem taking_moves (raw : ℕ → ℕ → Byte) (localtime : ℕ → Tm) (hper : s.persister = .taking)
    (hfree : s.ring.status s.ring.prst_buf = .FREE) (hlen : s.ring.len s.ring.prst_buf ≠ 0) :
    ∃ fs t, (∀ ev ∈ fs, LogEvent.ofPersister ev = true) ∧
      (logger raw localtime).Run s fs t ∧ t.persister.idles = true ∧
        t.ring.cur_buf = s.ring.next s.ring.cur_buf := by
  have htake : s.ring.take.cur_buf = s.ring.next s.ring.cur_buf := by
    unfold LogRing.take
    rw [if_pos hfree]
    exact LogRing.setStatus_next
  have hempty : (s.ring.buf s.ring.prst_buf).empty = false := beq_false_of_ne hlen
  set s₁ : Rlog ι := { s with persister := .deciding s.tm_.date, ring := s.ring.take } with hs₁
  have h₁ : (logger raw localtime).Run s [.take] s₁ := by
    refine .single hper ?_
    unfold logger
    dsimp only
    rw [hempty, if_neg Bool.false_ne_true]
  set file := s.file.decisFile s.tm_.date true
  by_cases hopen : file.disk.isOpen = true
  · set s₂ : Rlog ι := { s₁ with persister := .writing, file := file } with hs₂
    have h₂ : (logger raw localtime).Run s₁ [.decis true] s₂ := by
      refine .single rfl ?_
      show Except.ok { s₁ with file := file, persister := if file.disk.isOpen then .writing else .top } = _
      rw [if_pos hopen]
    have h₃ : (logger raw localtime).Run s₂ [.write [], .advance] _ :=
      .cons rfl rfl (.single rfl rfl)
    exact ⟨_, _, by simp [LogEvent.ofPersister], h₁.append (h₂.append h₃), rfl, htake⟩
  · have h₂ : (logger raw localtime).Run s₁ [.decis true] { s₁ with persister := .top, file := file } := by
      refine .single rfl ?_
      show Except.ok { s₁ with file := file, persister := if file.disk.isOpen then .writing else .top } = _
      rw [if_neg hopen]
    exact ⟨_, _, by simp [LogEvent.ofPersister], h₁.append h₂, rfl, htake⟩

/-- An idle logger whose persister goes on comes to take a buffer. -/
theorem idle_taking (raw : ℕ → ℕ → Byte) (localtime : ℕ → Tm) (h : s.Idle) (hstays : ¬s.Stays)
    (hprst : s.ring.Made s.ring.prst_buf) :
    ∃ fs, (∀ ev ∈ fs, LogEvent.ofPersister ev = true) ∧
      (logger raw localtime).Run s fs { s with persister := .taking } := by
  have hfree := h.free _ hprst
  have hidles := h.idles
  have hwake : ∀ u : Rlog ι, u.persister = .waiting →
      (logger raw localtime).Run u [.wake] { u with persister := .taking } := fun u hu => .single hu rfl
  have hlock : ∀ u : Rlog ι, u.ring = s.ring → u.persister = .entering →
      (logger raw localtime).Run u [.lock, .wake] { u with persister := .taking } := by
    intro u hring hu
    refine .cons hu ?_ (hwake { u with persister := .waiting } rfl)
    show Except.ok { u with
      persister := if u.ring.status u.ring.prst_buf = BufferStatus.FREE then .waiting else .taking } = _
    rw [hring, if_pos hfree]
  cases hper : s.persister with
  | absent => exact absurd (.inl hper) hstays
  | exited => exact absurd (.inr (.inl hper)) hstays
  | top =>
    have hrun : s.running = true := by
      by_contra hrun
      exact hstays (.inr (.inr ⟨hper, Bool.not_eq_true _ ▸ hrun⟩))
    refine ⟨[.test, .lock, .wake], by simp [LogEvent.ofPersister], ?_⟩
    refine .cons hper ?_ (hlock { s with persister := .entering } rfl rfl)
    show Except.ok { s with persister := if s.running then .entering else .exited } = _
    rw [if_pos hrun]
  | entering => exact ⟨[.lock, .wake], by simp [LogEvent.ofPersister], hlock s rfl hper⟩
  | waiting => exact ⟨[.wake], by simp [LogEvent.ofPersister], hwake s hper⟩
  | taking => exact ⟨[], by simp, hper ▸ .nil s⟩
  | deciding _ | writing | advancing =>
    rw [hper] at hidles
    cases hidles

variable {now : ℕ} {files : LogPath → Option Bytes} {es : List (LogEvent ι)}

/-- **When an idle logger writes nothing.** From a reachable state in which all lines have been
persisted: the iterations of the persister change nothing if and only if there are none. Where there is
one, it disturbs. -/
theorem idle_undisturbed_iff
    (h : (logger raw localtime).Run (.start raw localtime Rlog.one_buff_len now files) es s)
    (hidle : s.Idle) : s.Undisturbed raw localtime ↔ s.Stays := by
  obtain ⟨⟨l, hl⟩, hlen⟩ := logger_cycle h
  have hprst : s.ring.Made s.ring.prst_buf := (hl.made _).mp hl.prst
  constructor
  · intro hall
    by_contra hstays
    obtain ⟨fs, hfs, htaking⟩ := idle_taking raw localtime hidle hstays hprst
    have hpos : s.ring.len s.ring.prst_buf ≠ 0 := by
      rw [hl.len _ hl.prst, hlen]
      decide
    obtain ⟨gs, t, hgs, hmoved, hidles, hcur⟩ :=
      taking_moves (s := { s with persister := .taking }) raw localtime rfl (hidle.free _ hprst) hpos
    have hsame := hall (fs ++ gs) t ?_ (htaking.append hmoved) hidles
    · exact hl.next_ne hl.cur (hcur.symm.trans hsame.cur)
    · intro ev hev
      rcases List.mem_append.mp hev with hev | hev
      · exact hfs ev hev
      · exact hgs ev hev
  · intro hstays fs t hfs hr _
    exact stays_run hr hfs hstays

end

/-! ### A logger without lines -/

/-- The logger of the program; `now` is 0 and there are no files. -/
def quiet : Rlog Unit := .start (fun _ _ => 0) (fun _ => default) Rlog.one_buff_len 0 fun _ => none

/-- It has been started. -/
def started : Rlog Unit :=
  { quiet with life := .alive, running := true, persister := .top, file := { quiet.file with env_ok := true } }

theorem started_run : (logger (fun _ _ => 0) fun _ => default).Run quiet [.init true, .store] started :=
  .cons rfl rfl (.single rfl rfl)

theorem started_idle : started.Idle := by
  refine ⟨?_, rfl, rfl⟩
  intro p hp
  have hlt : p < 4 := hp.2
  have hpos : 0 < p := hp.1
  obtain rfl | rfl | rfl : p = 1 ∨ p = 2 ∨ p = 3 := by omega
  all_goals rfl

/-- `~rlog` has set `running` to false, and the persister is at its test. -/
theorem idle_undisturbed_iff_ending : ∃ s, (logger (fun _ _ => 0) fun _ => default).Run quiet
    [.init true, .store, .dtor] s ∧ s.Undisturbed (fun _ _ => 0) fun _ => default :=
  have hrun : (logger (fun _ _ => 0) fun _ => default).Run quiet ([.init true, .store] ++ [.dtor])
      { started with life := .joining 0, running := false } :=
    started_run.append (.single (.inr rfl) rfl)
  ⟨_, hrun, (idle_undisturbed_iff hrun ⟨started_idle.free, rfl, rfl⟩).mpr (.inr (.inr ⟨rfl, rfl⟩))⟩

/-- **A timeout moves both pointers** and makes a log file, before the first line. -/
theorem idle_walks : ∃ s t, (logger (fun _ _ => 0) fun _ => default).Run quiet [.init true, .store] s ∧
    s.Idle ∧ (logger (fun _ _ => 0) fun _ => default).Run s
      [.test, .lock, .wake, .take, .decis true, .write [], .advance] t ∧
    s.ring.cur_buf = 1 ∧ s.ring.prst_buf = 1 ∧ s.file.disk.files ⟨s.tm_.date, none⟩ = none ∧
    t.ring.cur_buf = 2 ∧ t.ring.prst_buf = 2 ∧ (t.file.disk.files ⟨s.tm_.date, none⟩).isSome = true ∧
    ¬s.Undisturbed (fun _ _ => 0) fun _ => default := by
  have hiter : (((logger (fun _ _ => 0) fun _ => default).exec started
      [.test, .lock, .wake, .take, .decis true, .write [], .advance]).map fun t =>
        (t.ring.cur_buf, t.ring.prst_buf, (t.file.disk.files ⟨started.tm_.date, none⟩).isSome, t.persister)) =
      some (2, 2, true, .top) := by
    decide +kernel
  obtain ⟨t, ht, hview⟩ := (System.exec_map_iff _).mp hiter
  simp only [Prod.mk.injEq] at hview
  obtain ⟨hcur, hprst, hfile, hper⟩ := hview
  refine ⟨started, t, started_run, started_idle, ht, rfl, rfl, rfl, hcur, hprst, hfile, ?_⟩
  intro hall
  have hsame := hall _ t (by simp [LogEvent.ofPersister]) ht (by rw [hper]; rfl)
  exact absurd (hcur.symm.trans hsame.cur) (by decide)

end MuduoSe
