/-
# The output side of a connection: order, and what becomes of a shutdown

`sendinloop` writes to the socket itself if nothing is queued and write interest is
off, and queues what is left; `handlewrite` drains the queue. One invariant carries
both results (`Session.OutGood`): what the kernel accepted followed by what is queued
is what was sent, and write interest is on exactly while something is queued.

`output_in_order` is that invariant over all runs. `shutdown_remembered_iff`:
`shutdownloop` does nothing while output is queued and `handlewrite` does not look at
`state_`, so a shutdown is carried out if and only if nothing was queued when it was
first requested.

Key theorems: `sendinloop_spec`, `handlewrite_spec`, `out_step`.
-/
import MuduoSe.Net.TcpConnect

namespace MuduoSe
namespace TcpConnect

/-- `sendinloop` writes to the socket itself. -/
def direct (c : TcpConnect) : Bool := !c.channel_.iswriting && c.outbuffer_.readsize == 0

/-- How many bytes of a send the kernel takes at once, if its `::write` returns `n`. -/
def sentNow (c : TcpConnect) (n : ℕ) : ℕ := if c.direct then n else 0

/-- **A send queues what the socket did not take at once**, and then watches for the
socket to become writable. -/
theorem sendinloop_spec {c : TcpConnect} (hv : c.outbuffer_.Valid) {str : Bytes} {n : ℕ}
    (hn : n ≤ str.length) : ∃ out channel,
      c.sendinloop str (some n) = .ok ({ c with outbuffer_ := out, channel_ := channel },
        if c.direct then [.write (str.take n)] else []) ∧
      out.Valid ∧ out.content = c.outbuffer_.content ++ str.drop (c.sentNow n) ∧
      (channel.iswriting = true ↔ c.channel_.iswriting = true ∨ str.drop (c.sentNow n) ≠ []) := by
  have hm : c.sentNow n ≤ str.length := by rw [sentNow]; split_ifs <;> omega
  have hret : (if c.direct then sysret (some n) else 0) = (c.sentNow n : Int) := by
    rw [sentNow]; split_ifs <;> rfl
  have hwrote : (if c.direct then [Effect.write (str.take (c.sentNow n : Int).toNat)] else []) =
      if c.direct then [.write (str.take n)] else [] := by
    rw [sentNow]; split_ifs <;> rfl
  have hdir : (!c.channel_.iswriting && c.outbuffer_.readsize == 0) = c.direct := rfl
  rw [sendinloop]
  dsimp only
  rw [hdir, hret, hwrote, check_pos (Int.natCast_nonneg _), ok_bind, Int.toNat_natCast]
  by_cases hlt : (c.sentNow n : Int) < str.length
  · have hlen : ((str.length : Int) - c.sentNow n) = (str.length - c.sentNow n : ℕ) := by omega
    obtain ⟨out, hout, hval, hcont, -⟩ := Buffer.append_spec hv (str.drop (c.sentNow n))
      (n := str.length - c.sentNow n) (by rw [List.length_drop])
    rw [if_pos hlt, hlen, hout, ok_bind, res_pure]
    have hne : str.drop (c.sentNow n) ≠ [] := by
      rw [Ne, List.drop_eq_nil_iff]; omega
    refine ⟨out, _, rfl, hval, ?_, ?_⟩
    · rw [hcont, List.take_of_length_le (by rw [List.length_drop])]
    · cases hw : c.channel_.iswriting <;> simp [hw, hne]
  · have hnil : str.drop (c.sentNow n) = [] := List.drop_eq_nil_of_le (by omega)
    rw [if_neg hlt, res_pure]
    refine ⟨c.outbuffer_, c.channel_, rfl, hv, by rw [hnil, List.append_nil], ?_⟩
    rw [hnil]
    simp

/-- **A write event hands the front of the queue to the socket**, and stops watching
for it once the queue is drained. -/
theorem handlewrite_spec {c : TcpConnect} (hv : c.outbuffer_.Valid) {n : ℕ}
    (hn : n ≤ c.outbuffer_.content.length) : ∃ out channel,
      c.handlewrite (some n) = .ok ({ c with outbuffer_ := out, channel_ := channel },
        [.write (c.outbuffer_.content.take n)]) ∧
      out.Valid ∧ out.content = c.outbuffer_.content.drop n ∧
      channel = if n ≠ 0 ∧ out.content = [] then c.channel_.diswrite else c.channel_ := by
  obtain ⟨out, hout, hval, hcont, -⟩ := Buffer.write_spec hv hn
  have hr := hval.readsize_eq
  rw [handlewrite, hout, ok_bind]
  dsimp only
  by_cases h0 : (n : Int) ≤ 0
  · rw [if_pos h0, res_pure]
    exact ⟨out, c.channel_, rfl, hval, hcont, by rw [if_neg (by omega)]⟩
  · rw [if_neg h0]
    by_cases hs : out.readsize = 0
    · have hnil : out.content = [] := List.length_eq_zero_iff.mp (by omega)
      rw [if_pos hs, res_pure]
      exact ⟨out, c.channel_.diswrite, rfl, hval, hcont, by rw [if_pos ⟨by omega, hnil⟩]⟩
    · have hne : out.content ≠ [] := fun h => hs (by rw [hr, h]; rfl)
      rw [if_neg hs, res_pure]
      exact ⟨out, c.channel_, rfl, hval, hcont, by rw [if_neg fun h => hne h.2]⟩

end TcpConnect

namespace Session

open TcpConnect

/-- A send appends to what was accepted and is queued, and touches nothing else. -/
theorem step_send {s : Session} (hv : s.conn.outbuffer_.Valid) {str : Bytes} {n : ℕ}
    (hn : n ≤ str.length) : ∃ (out : Buffer) (channel : Channel) (accepted : Bytes),
      s.step (.sendinloop str n) = .ok { s with
        conn := { s.conn with outbuffer_ := out, channel_ := channel }
        queued := s.queued ++ str
        accepted := accepted } ∧
      out.Valid ∧ accepted ++ out.content = s.accepted ++ s.conn.outbuffer_.content ++ str ∧
      out.content = s.conn.outbuffer_.content ++ str.drop (s.conn.sentNow n) ∧
      (channel.iswriting = true ↔
        s.conn.channel_.iswriting = true ∨ str.drop (s.conn.sentNow n) ≠ []) := by
  obtain ⟨out, channel, hsend, hval, hcont, hwr⟩ := sendinloop_spec hv hn
  refine ⟨out, channel, s.accepted ++ str.take (s.conn.sentNow n), ?_, hval, ?_, hcont, hwr⟩
  · rw [step, hsend, ok_bind, sentNow]
    split_ifs <;> simp [record]
  · rw [hcont]
    by_cases hd : s.conn.direct = true
    · -- nothing was queued, so the bytes taken now come right behind the accepted ones
      have hnil : s.conn.outbuffer_.content = [] := by
        rw [direct, Bool.and_eq_true, hv.readsize_eq] at hd
        simpa using hd.2
      rw [hnil, List.append_nil, List.nil_append, List.append_assoc, List.take_append_drop]
    · simp [sentNow, hd]

/-- A write event moves the front of the queue to what was accepted. -/
theorem step_write {s : Session} (hv : s.conn.outbuffer_.Valid) {n : ℕ}
    (hn : n ≤ s.conn.outbuffer_.content.length) : ∃ (out : Buffer) (accepted : Bytes),
      s.step (.handlewrite (some n)) = .ok { s with
        conn := { s.conn with
          outbuffer_ := out
          channel_ :=
            if n ≠ 0 ∧ out.content = [] then s.conn.channel_.diswrite else s.conn.channel_ }
        accepted := accepted } ∧
      out.Valid ∧ accepted ++ out.content = s.accepted ++ s.conn.outbuffer_.content ∧
      out.content = s.conn.outbuffer_.content.drop n := by
  obtain ⟨out, channel, hwrite, hval, hcont, rfl⟩ := handlewrite_spec hv hn
  refine ⟨out, s.accepted ++ s.conn.outbuffer_.content.take n, ?_, hval, ?_, hcont⟩
  · rw [step, hwrite, ok_bind]
    rfl
  · rw [hcont, List.append_assoc, List.take_append_drop]

/-- What the kernel took and what is queued is what was sent, in order, and write
interest is on exactly while something is queued. -/
structure OutGood (s : Session) : Prop where
  valid : s.conn.outbuffer_.Valid
  order : s.accepted ++ s.conn.outbuffer_.content = s.queued
  writing : s.conn.channel_.iswriting = true ↔ s.conn.outbuffer_.content ≠ []

theorem start_outGood (fd : Int) (cap : ℕ) : (start fd cap).OutGood where
  valid := Buffer.new_valid cap
  order := by simp [start, conestablish, TcpConnect.new]
  writing := by simp [start, conestablish, TcpConnect.new]

/-- The session after a send. -/
theorem OutGood.send {s : Session} (h : s.OutGood) {str : Bytes} {n : ℕ} (hn : n ≤ str.length) :
    ∃ t, s.step (.sendinloop str n) = .ok t ∧ t.OutGood ∧ t.conn.state_ = s.conn.state_ ∧
      t.shutdowns = s.shutdowns := by
  obtain ⟨out, channel, accepted, hstep, hval, hacc, hcont, hwr⟩ := step_send h.valid hn
  refine ⟨_, hstep, ⟨hval, ?_, ?_⟩, rfl, rfl⟩
  · dsimp only
    rw [hacc, h.order]
  · dsimp only
    rw [hwr, hcont, h.writing, Ne, Ne, Ne, List.append_eq_nil_iff, not_and_or]

/-- The session after a write event. -/
theorem OutGood.write {s : Session} (h : s.OutGood) {n : ℕ}
    (hn : n ≤ s.conn.outbuffer_.content.length) :
    ∃ t, s.step (.handlewrite (some n)) = .ok t ∧ t.OutGood ∧ t.conn.state_ = s.conn.state_ ∧
      t.shutdowns = s.shutdowns ∧
      t.conn.outbuffer_.content = s.conn.outbuffer_.content.drop n := by
  obtain ⟨out, accepted, hstep, hval, hacc, hcont⟩ := step_write h.valid hn
  refine ⟨_, hstep, ⟨hval, hacc.trans h.order, ?_⟩, rfl, rfl, hcont⟩
  dsimp only
  have hw := h.writing
  split_ifs with hc
  · simp [hc.2]
  · rw [hw, hcont]
    rw [hcont] at hc
    by_cases hn0 : n = 0
    · rw [hn0, List.drop_zero]
    · refine ⟨fun _ hd => hc ⟨hn0, hd⟩, fun hd he => hd ?_⟩
      rw [he, List.drop_nil]

/-- The session after a shutdown request. -/
theorem OutGood.shutdown {s : Session} (h : s.OutGood) :
    ∃ t, s.step .shutdown = .ok t ∧ t.OutGood ∧ t.conn.state_ = .kdisconnect ∧
      t.conn.outbuffer_ = s.conn.outbuffer_ ∧ t.conn.channel_ = s.conn.channel_ ∧
      t.shutdowns = s.shutdowns ++
        if s.conn.state_ = .kconnected ∧ s.conn.channel_.iswriting = false then
          [(.SHUT_RD, s.conn.outbuffer_.content)] else [] := by
  rw [step, TcpConnect.shutdown, shutdownloop]
  dsimp only
  rcases hs : s.conn.state_ with _ | _
  · cases hw : s.conn.channel_.iswriting with
    | true => exact ⟨_, rfl, ⟨h.valid, h.order, h.writing⟩, rfl, rfl, rfl, by simp [record]⟩
    | false =>
      exact ⟨_, rfl, ⟨h.valid, h.order, h.writing⟩, rfl, rfl, rfl, by simp [record, Socket.shutdown]⟩
  · exact ⟨_, rfl, ⟨h.valid, h.order, h.writing⟩, hs, rfl, rfl, by simp [record]⟩

end Session

open Session

/-- Every event that can happen on the output side is handled, and keeps the
invariant. -/
theorem out_step {s : Session} (h : s.OutGood) {e : Event} (hg : output.guard s e) :
    ∃ t, output.step s e = .ok t ∧ t.OutGood := by
  obtain ⟨hout, hposs⟩ := hg
  cases e with
  | handleread r k => cases hout
  | handlewrite r =>
    cases r with
    | none => cases hout
    | some n =>
      have hn : (n : Int) ≤ s.conn.outbuffer_.readsize := hposs
      rw [h.valid.readsize_eq] at hn
      obtain ⟨t, ht, hgood, -⟩ := h.write (n := n) (by omega)
      exact ⟨t, ht, hgood⟩
  | sendinloop str n =>
    obtain ⟨t, ht, hgood, -⟩ := h.send (n := n) hposs
    exact ⟨t, ht, hgood⟩
  | shutdown =>
    obtain ⟨t, ht, hgood, -⟩ := h.shutdown
    exact ⟨t, ht, hgood⟩

theorem outGood_of_run {s t : Session} {es : List Event} (h : output.Run s es t) (hs : s.OutGood) :
    t.OutGood := by
  refine h.invariant (fun {s t e} hs hg ht => ?_) hs
  obtain ⟨t', ht', hgood⟩ := out_step hs hg
  rw [ht', Except.ok.injEq] at ht
  exact ht ▸ hgood

/-- **Outgoing bytes keep their order.** After any sends and write events on an open
connection, what the kernel accepted followed by what is queued is what was sent;
write interest is on exactly while something is queued; and every further event is
handled without a fault. -/
theorem output_in_order (fd : Int) (cap : ℕ) {es : List Event} {s : Session}
    (h : output.Run (start fd cap) es s) :
    s.accepted ++ s.conn.outbuffer_.content = s.queued ∧
      (s.conn.channel_.iswriting = true ↔ s.conn.outbuffer_.content ≠ []) ∧
      ∀ e, output.guard s e → ∃ t, output.step s e = .ok t := by
  have hgood := outGood_of_run h (start_outGood fd cap)
  refine ⟨hgood.order, hgood.writing, fun e hg => ?_⟩
  obtain ⟨t, ht, -⟩ := out_step hgood hg
  exact ⟨t, ht⟩

/-- A partial direct write, a send behind it, a partial drain, an empty send and the
rest of the drain. -/
theorem output_in_order_drained : ∃ s, output.Run (start 7 4)
      [.sendinloop (bytes "abc") 1, .sendinloop (bytes "defg") 0, .handlewrite (some 4),
        .sendinloop [] 0, .handlewrite (some 2)] s ∧
    s.accepted ++ s.conn.outbuffer_.content = s.queued := by
  have h : (output.exec (start 7 4) [.sendinloop (bytes "abc") 1, .sendinloop (bytes "defg") 0,
      .handlewrite (some 4), .sendinloop [] 0, .handlewrite (some 2)]).isSome = true := by decide
  obtain ⟨s, hs⟩ := Option.isSome_iff_exists.mp h
  exact ⟨s, output.exec_iff.mp hs, (output_in_order 7 4 (output.exec_iff.mp hs)).1⟩

/-! ### Shutdown -/

/-- Nothing is queued and write interest is off. -/
def Session.Drained (s : Session) : Prop :=
  s.conn.outbuffer_.content = [] ∧ s.conn.channel_.iswriting = false

/-- An event other than `shutdown` calls no `::shutdown` and leaves `state_`. -/
theorem out_step_keeps {s t : Session} (h : s.OutGood) {e : Event} (hg : output.guard s e)
    (ht : output.step s e = .ok t) (he : e ≠ .shutdown) :
    t.shutdowns = s.shutdowns ∧ t.conn.state_ = s.conn.state_ := by
  obtain ⟨hout, hposs⟩ := hg
  cases e with
  | handleread r k => cases hout
  | handlewrite r =>
    cases r with
    | none => cases hout
    | some n =>
      have hn : (n : Int) ≤ s.conn.outbuffer_.readsize := hposs
      rw [h.valid.readsize_eq] at hn
      obtain ⟨t', ht', -, hstate, hshut, -⟩ := h.write (n := n) (by omega)
      have ht : s.step (.handlewrite (some n)) = .ok t := ht
      rw [ht', Except.ok.injEq] at ht
      exact ht ▸ ⟨hshut, hstate⟩
  | sendinloop str n =>
    obtain ⟨t', ht', -, hstate, hshut⟩ := h.send (n := n) hposs
    have ht : s.step (.sendinloop str n) = .ok t := ht
    rw [ht', Except.ok.injEq] at ht
    exact ht ▸ ⟨hshut, hstate⟩
  | shutdown => exact absurd rfl he

/-- Until `shutdown` is called the connection counts as connected. -/
theorem connected_of_run {s t : Session} {es : List Event} (h : output.Run s es t) (hs : s.OutGood)
    (hno : Event.shutdown ∉ es) (hc : s.conn.state_ = .kconnected) (h0 : s.shutdowns = []) :
    t.conn.state_ = .kconnected ∧ t.shutdowns = [] := by
  induction h with
  | nil => exact ⟨hc, h0⟩
  | cons hg hstep _ ih =>
    rw [List.mem_cons, not_or] at hno
    obtain ⟨h1, h2⟩ := out_step_keeps hs hg hstep (Ne.symm hno.1)
    exact ih (outGood_of_run (.single hg hstep) hs) hno.2 (h2.trans hc) (h1.trans h0)

/-- Once it has been called, nothing calls `::shutdown` any more. -/
theorem shutdowns_of_run {s t : Session} {es : List Event} (h : output.Run s es t) (hs : s.OutGood)
    (hd : s.conn.state_ = .kdisconnect) : t.shutdowns = s.shutdowns := by
  induction h with
  | nil => rfl
  | @cons s u _ e _ hg hstep _ ih =>
    have hu := outGood_of_run (.single hg hstep) hs
    by_cases he : e = .shutdown
    · subst he
      obtain ⟨u', hu', -, hstate, -, -, hshut⟩ := hs.shutdown
      have hstep : s.step .shutdown = .ok u := hstep
      rw [hu', Except.ok.injEq] at hstep
      subst hstep
      rw [ih hu hstate, hshut, hd]
      simp
    · obtain ⟨h1, h2⟩ := out_step_keeps hs hg hstep he
      rw [ih hu (h2.trans hd), h1]

/-- The one `::shutdown` of a connection is decided when `shutdown` is first called. -/
theorem shutdowns_eq {fd : Int} {cap : ℕ} {pre post : List Event} {t s : Session}
    (h : output.Run (start fd cap) pre t) (hno : Event.shutdown ∉ pre)
    (h' : output.Run t (.shutdown :: post) s) :
    s.shutdowns = if t.conn.channel_.iswriting = false then [(.SHUT_RD, [])] else [] := by
  have hgood := outGood_of_run h (start_outGood fd cap)
  obtain ⟨hc, h0⟩ := connected_of_run h (start_outGood fd cap) hno rfl rfl
  cases h' with
  | @cons _ u _ _ _ hg hstep hrest =>
    obtain ⟨u', hu', hugood, hstate, -, -, hshut⟩ := hgood.shutdown
    have hstep : t.step .shutdown = .ok u := hstep
    rw [hu', Except.ok.injEq] at hstep
    subst hstep
    rw [shutdowns_of_run hrest hugood hstate, hshut, h0, hc, List.nil_append]
    by_cases hw : t.conn.channel_.iswriting = false
    · have hnil : t.conn.outbuffer_.content = [] := by
        by_contra hne
        rw [hgood.writing.mpr hne] at hw
        cases hw
      simp [hw, hnil]
    · simp [hw]

/-- **When a requested shutdown is carried out.** From a state `t` in which `shutdown`
is called for the first time: in every later state with nothing left to send,
`Socket::shutdown` has been called exactly once, and never with bytes unsent, if and
only if write interest was off in `t`. -/
theorem shutdown_remembered_iff (fd : Int) (cap : ℕ) {pre : List Event} {t : Session}
    (h : output.Run (start fd cap) pre t) (hfirst : Event.shutdown ∉ pre) :
    (∀ post s, output.Run t (.shutdown :: post) s →
      (s.Drained → s.shutdowns.length = 1) ∧ ∀ p ∈ s.shutdowns, p.2 = []) ↔
        t.conn.channel_.iswriting = false := by
  constructor
  · intro hall
    by_contra hw
    have hgood := outGood_of_run h (start_outGood fd cap)
    obtain ⟨u, hu, hugood, -, hout, -, -⟩ := hgood.shutdown
    -- drain the queue at once
    have hle : output.guard u (.handlewrite (some u.conn.outbuffer_.content.length)) :=
      ⟨rfl, Int.le_of_eq hugood.valid.readsize_eq.symm⟩
    obtain ⟨v, hv, hvgood, -, -, hcont⟩ := hugood.write (n := u.conn.outbuffer_.content.length) le_rfl
    rw [List.drop_length] at hcont
    have hrun : output.Run t [.shutdown, .handlewrite (some u.conn.outbuffer_.content.length)] v :=
      .cons ⟨rfl, trivial⟩ hu (.single hle hv)
    have hdrained : v.Drained :=
      ⟨hcont, Bool.eq_false_iff.mpr fun hwr => hvgood.writing.mp hwr hcont⟩
    have hlen := (hall _ _ hrun).1 hdrained
    rw [shutdowns_eq h hfirst hrun, if_neg hw] at hlen
    cases hlen
  · intro hw post s hrun
    rw [shutdowns_eq h hfirst hrun, if_pos hw]
    simp

/-- A shutdown after a send that the kernel took at once. -/
theorem shutdown_remembered_iff_idle : ∃ t, output.Run (start 7 4) [.sendinloop (bytes "ok") 2] t ∧
    ∀ post s, output.Run t (.shutdown :: post) s →
      (s.Drained → s.shutdowns.length = 1) ∧ ∀ p ∈ s.shutdowns, p.2 = [] := by
  have h : (output.exec (start 7 4) [.sendinloop (bytes "ok") 2]).map (fun t => t.conn.channel_.iswriting) =
      some false := by
    decide
  obtain ⟨t, ht, hwriting⟩ := output.exec_map_iff.mp h
  exact ⟨t, ht, (shutdown_remembered_iff 7 4 ht (by decide)).mpr hwriting⟩

/-- A shutdown requested while two bytes are queued: they are drained, and the socket
is never shut down. -/
theorem shutdown_forgotten : ¬∀ (fd : Int) (cap : ℕ) (es : List Event) (s : Session),
    output.Run (start fd cap) es s → Event.shutdown ∈ es → s.Drained →
      s.shutdowns.length = 1 ∧ ∀ p ∈ s.shutdowns, p.2 = [] := by
  intro hall
  have h : ∃ s, output.exec (start 7 4) [.sendinloop (bytes "ab") 0, .shutdown, .handlewrite (some 2)] =
      some s ∧ s.conn.outbuffer_.content = [] ∧ s.conn.channel_.iswriting = false ∧ s.shutdowns = [] :=
    ⟨_, rfl, by decide⟩
  obtain ⟨s, hs, hcont, hwr, hshut⟩ := h
  have hlen := (hall 7 4 _ s (output.exec_iff.mp hs) (by decide) ⟨hcont, hwr⟩).1
  rw [hshut] at hlen
  cases hlen

end MuduoSe
