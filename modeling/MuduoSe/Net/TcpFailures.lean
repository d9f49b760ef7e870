/-
# Failed system calls and the two streams of a connection

`Buffer::read` and `Buffer::write` add what the call returned to an index before
anybody looks at its sign: a failed call (-1, for example EAGAIN) takes the last
received byte away or sends the last sent byte again. `handleread` and `handlewrite`
come too late to notice.

`streams_intact_iff`: along any events on a connection whose buffers stay below `2^31`
bytes, every failed call leaves the buffers alone and no byte is lost, repeated or
invented, if and only if no call of `readv` or `::write` fails and no `readv`
overflows a free tail (`read_exact_iff`).

`refused_send_fails`: the direct write of a send is worse. `sendinloop` only warns when it fails and
then asserts that it did not, so nothing of a refused send is ever queued; a write that takes no byte
would have queued all of it (`queues_untaken`).

Key definitions: `Session.Streams`, `StepIntact`, `StepClean`, `Queues`.
-/
import MuduoSe.Net.TcpOutput

namespace MuduoSe

/-- The two indices and the unread bytes are the same. -/
def Buffer.Same (b b' : Buffer) : Prop :=
  b'.readindex_ = b.readindex_ ∧ b'.writeindex_ = b.writeindex_ ∧ b'.content = b.content

/-- A system call of the event returns -1. -/
def Event.failed : Event → Bool
  | .handleread none _ => true
  | .handlewrite none => true
  | _ => false

namespace Session

/-- The history of a connection that is looked at from now on: what its buffers hold
was delivered and sent before. -/
def since (c : TcpConnect) : Session := ⟨c, c.inbuffer_.content, [], c.outbuffer_.content, [], []⟩

/-- Both buffers are valid; retrieved then unread is what was delivered, and accepted
then queued is what was sent. -/
structure Streams (s : Session) : Prop where
  in_valid : s.conn.inbuffer_.Valid
  out_valid : s.conn.outbuffer_.Valid
  incoming : s.consumed ++ s.conn.inbuffer_.content = s.delivered
  outgoing : s.accepted ++ s.conn.outbuffer_.content = s.queued

theorem since_streams {c : TcpConnect} (hin : c.inbuffer_.Valid) (hout : c.outbuffer_.Valid) :
    (since c).Streams := ⟨hin, hout, rfl, rfl⟩

/-- The session after bytes were read into a buffer and the callback ran. -/
theorem step_read {s : Session} {d : Bytes} (hpos : 0 < d.length) (k : ℕ)
    {b : Buffer} (hr : s.conn.inbuffer_.read (some d) = .ok (d.length, b)) (hv : b.Valid) :
    ∃ t, s.step (.handleread (some d) k) = .ok t ∧ t.conn.inbuffer_.Valid ∧
      t.consumed ++ t.conn.inbuffer_.content = s.consumed ++ b.content ∧
      t.delivered = s.delivered ++ d ∧ t.conn.outbuffer_ = s.conn.outbuffer_ ∧
      t.accepted = s.accepted ∧ t.queued = s.queued := by
  have hn : (d.length : Int) > 0 := by omega
  have hsize : sizeT b.readsize = b.content.length := by
    rw [hv.readsize_eq, sizeT_of_nonneg (Int.natCast_nonneg _), Int.toNat_natCast]
  obtain ⟨b', hb', hv', hc', -⟩ := Buffer.retrieve_spec hv (n := min k b.content.length)
    (Nat.min_le_right _ _)
  have hret : s.retrieved (some d) k = b.content.take k := by
    rw [retrieved, hr]
    dsimp only
    rw [if_pos hn]
  refine ⟨⟨⟨s.conn.channel_, b', s.conn.outbuffer_, s.conn.state_⟩, s.delivered ++ d,
    s.consumed ++ b.content.take k, s.queued, s.accepted, s.shutdowns⟩, ?_, hv', ?_, rfl, rfl, rfl, rfl⟩
  · rw [step, TcpConnect.handleread, hr, hret]
    dsimp only [ok_bind]
    rw [if_pos hn, message]
    dsimp only
    rw [hsize, hb']
    rfl
  · dsimp only
    have hdrop : b.content.drop (min k b.content.length) = b.content.drop k := by
      rcases Nat.le_total k b.content.length with hk | hk
      · rw [Nat.min_eq_left hk]
      · rw [Nat.min_eq_right hk, List.drop_length, List.drop_eq_nil_of_le hk]
    rw [hc', hdrop, List.append_assoc, List.take_append_drop]

/-- The session after a read that found the end of the stream. -/
theorem Streams.eof {s : Session} (h : s.Streams) (k : ℕ) :
    ∃ t, s.step (.handleread (some []) k) = .ok t ∧ t.Streams := by
  obtain ⟨b, hv, hc, hr⟩ := Buffer.read_fits h.in_valid (d := [])
    (by have := h.in_valid.write_le_size; rw [Buffer.writesize, List.length_nil]; omega)
  have hr : s.conn.inbuffer_.read (some []) = .ok (0, b) := hr _ List.length_replicate
  have hret : s.retrieved (some []) k = [] := by rw [retrieved, hr]; rfl
  refine ⟨⟨⟨s.conn.channel_.disallevent, b, s.conn.outbuffer_, s.conn.state_⟩, s.delivered,
    s.consumed, s.queued, s.accepted, s.shutdowns⟩, ?_, hv, h.out_valid, ?_, h.outgoing⟩
  · rw [step, TcpConnect.handleread, hr, hret]
    simp [TcpConnect.handledel, record]
  · dsimp only
    rw [hc, List.append_nil, h.incoming]

theorem Streams.write {s : Session} (h : s.Streams) {n : ℕ}
    (hn : n ≤ s.conn.outbuffer_.content.length) :
    ∃ t, s.step (.handlewrite (some n)) = .ok t ∧ t.Streams := by
  obtain ⟨out, accepted, hstep, hval, hacc, -⟩ := step_write h.out_valid hn
  exact ⟨_, hstep, h.in_valid, hval, h.incoming, hacc.trans h.outgoing⟩

theorem Streams.send {s : Session} (h : s.Streams) {str : Bytes} {n : ℕ} (hn : n ≤ str.length) :
    ∃ t, s.step (.sendinloop str n) = .ok t ∧ t.Streams := by
  obtain ⟨out, channel, accepted, hstep, hval, hacc, -⟩ := step_send h.out_valid hn
  refine ⟨_, hstep, h.in_valid, hval, h.incoming, ?_⟩
  dsimp only
  rw [hacc, h.outgoing]

theorem Streams.shutdown {s : Session} (h : s.Streams) :
    ∃ t, s.step .shutdown = .ok t ∧ t.Streams := by
  rw [step, TcpConnect.shutdown, TcpConnect.shutdownloop]
  split_ifs <;> exact ⟨_, rfl, h.in_valid, h.out_valid, h.incoming, h.outgoing⟩

end Session

open Session

/-- An event leaves the streams whole: it is handled, a failed call changes neither
buffer, and no byte is lost, repeated or invented. -/
def StepIntact (s : Session) (e : Event) : Prop :=
  ∃ t, conn.step s e = .ok t ∧
    (e.failed = true → s.conn.inbuffer_.Same t.conn.inbuffer_ ∧ s.conn.outbuffer_.Same t.conn.outbuffer_) ∧
    t.consumed ++ t.conn.inbuffer_.content = t.delivered ∧
    t.accepted ++ t.conn.outbuffer_.content = t.queued

/-- No call fails, and `readv` fills the free tail only if it is empty or takes all. -/
def StepClean (s : Session) : Event → Prop
  | .handleread (some d) _ =>
    (d.length : Int) ≤ s.conn.inbuffer_.writesize ∨ s.conn.inbuffer_.writesize = 0
  | .handleread none _ => False
  | .handlewrite r => r ≠ none
  | _ => True

/-- An event under the condition is handled, and keeps the streams. -/
theorem clean_step {s : Session} (h : s.Streams) {e : Event} (hg : conn.guard s e)
    (hc : StepClean s e) : ∃ t, conn.step s e = .ok t ∧ t.Streams ∧ e.failed = false := by
  cases e with
  | handleread r k =>
    cases r with
    | none => exact hc.elim
    | some d =>
      rcases Nat.eq_zero_or_pos d.length with h0 | hpos
      · obtain rfl : d = [] := List.length_eq_zero_iff.mp h0
        obtain ⟨t, ht, hs⟩ := h.eof k
        exact ⟨t, ht, hs, rfl⟩
      · have hexact : s.conn.inbuffer_.ReadExact d := by
          rcases hc with hc | hc
          · exact Buffer.read_fits h.in_valid hc
          · exact Buffer.read_full h.in_valid hpos hg hc
        obtain ⟨b, hv, hcont, hr⟩ := hexact
        obtain ⟨t, ht, hv', hin, hdel, hout, hacc, hque⟩ :=
          step_read hpos k (hr _ List.length_replicate) hv
        refine ⟨t, ht, ⟨hv', hout ▸ h.out_valid, ?_, ?_⟩, rfl⟩
        · rw [hin, hcont, ← List.append_assoc, h.incoming, hdel]
        · rw [hacc, hout, h.outgoing, hque]
  | handlewrite r =>
    cases r with
    | none => exact absurd rfl hc
    | some n =>
      have hn : (n : Int) ≤ s.conn.outbuffer_.readsize := hg
      rw [h.out_valid.readsize_eq] at hn
      obtain ⟨t, ht, hs⟩ := h.write (n := n) (by omega)
      exact ⟨t, ht, hs, rfl⟩
  | sendinloop str n =>
    obtain ⟨t, ht, hs⟩ := h.send (n := n) hg
    exact ⟨t, ht, hs, rfl⟩
  | shutdown =>
    obtain ⟨t, ht, hs⟩ := h.shutdown
    exact ⟨t, ht, hs, rfl⟩

/-- A failed read moves `writeindex_`. -/
theorem read_failed_touches {s t : Session} (h : s.Streams) {k : ℕ}
    (ht : s.step (.handleread none k) = .ok t) :
    t.conn.inbuffer_.writeindex_ = s.conn.inbuffer_.writeindex_ - 1 := by
  have hw : -1 ≤ s.conn.inbuffer_.writesize := by
    have := h.in_valid.write_le_size
    rw [Buffer.writesize]; omega
  rw [step, TcpConnect.handleread, Buffer.read_failed _ hw] at ht
  dsimp only [ok_bind] at ht
  rw [if_neg (by decide), if_neg (by decide), res_pure, ok_bind, res_pure, Except.ok.injEq] at ht
  exact ht ▸ rfl

/-- A failed write moves `readindex_`. -/
theorem write_failed_touches {s t : Session} (h : s.Streams)
    (ht : s.step (.handlewrite none) = .ok t) :
    t.conn.outbuffer_.readindex_ = s.conn.outbuffer_.readindex_ - 1 := by
  rw [step, TcpConnect.handlewrite, Buffer.write_failed h.out_valid] at ht
  dsimp only [ok_bind] at ht
  rw [if_pos (by decide), res_pure, ok_bind, res_pure, Except.ok.injEq] at ht
  exact ht ▸ rfl

/-- The condition is needed: any other event breaks a stream or is a fault. -/
theorem intact_clean {s : Session} (h : s.Streams) {e : Event} (hg : conn.guard s e)
    (hi : StepIntact s e) : StepClean s e := by
  obtain ⟨t, ht, hsame, hin, -⟩ := hi
  cases e with
  | handleread r k =>
    cases r with
    | none =>
      have h1 := (hsame rfl).1.2.1
      have h2 := read_failed_touches h ht
      omega
    | some d =>
      by_contra hc
      have hc : ¬((d.length : Int) ≤ s.conn.inbuffer_.writesize ∨ s.conn.inbuffer_.writesize = 0) := hc
      have hg : (d.length : Int) ≤ s.conn.inbuffer_.writesize + 1024 := hg
      have hw : 0 ≤ s.conn.inbuffer_.writesize := by
        have := h.in_valid.write_le_size
        rw [Buffer.writesize]; omega
      -- the read itself returned, with too many bytes
      have hread : ∃ n b, s.conn.inbuffer_.read (some d) = .ok (n, b) := by
        have ht : s.step (.handleread (some d) k) = .ok t := ht
        rw [step] at ht
        obtain ⟨p, hp, -⟩ := bind_ok ht
        obtain ⟨q, hq, -⟩ := bind_ok hp
        exact ⟨q.1, q.2, hq⟩
      obtain ⟨n, b, hr⟩ := hread
      obtain ⟨rfl, hv, hlen⟩ := Buffer.overflow_length h.in_valid (by omega) hg List.length_replicate hr
      obtain ⟨t', ht', -, hin', hdel, -⟩ := step_read (by omega) k hr hv
      have ht : s.step (.handleread (some d) k) = .ok t := ht
      rw [ht', Except.ok.injEq] at ht
      subst ht
      have heq := congrArg List.length (hin'.symm.trans (hin.trans hdel))
      rw [← h.incoming] at heq
      simp only [List.length_append] at heq
      omega
  | handlewrite r =>
    cases r with
    | none =>
      have h1 := (hsame rfl).2.1
      have h2 := write_failed_touches h ht
      omega
    | some n => exact Option.some_ne_none n
  | sendinloop str n => trivial
  | shutdown => trivial

/-- **When the streams of a connection stay whole.** Along any events from a
connection with valid buffers: every event is handled, failed calls leave both buffers
as they were, and what was received and sent is kept byte for byte, if and only if no
call fails and no read overflows a free tail. -/
theorem streams_intact_iff {c : TcpConnect} (hin : c.inbuffer_.Valid) (hout : c.outbuffer_.Valid)
    {es : List Event} (hposs : conn.Always conn.guard (since c) es) :
    conn.Always StepIntact (since c) es ↔ conn.Always StepClean (since c) es := by
  refine System.always_congr (I := Streams) (G := conn.guard) ?_ ?_ (since_streams hin hout) hposs
  · intro s t e hs hg hc ht
    obtain ⟨t', ht', hs', -⟩ := clean_step hs hg hc
    rw [ht', Except.ok.injEq] at ht
    exact ht ▸ hs'
  · intro s e hs hg
    refine ⟨intact_clean hs hg, fun hc => ?_⟩
    obtain ⟨t, ht, hs', hf⟩ := clean_step hs hg hc
    exact ⟨t, ht, fun hf' => absurd (hf ▸ hf') (by decide), hs'.incoming, hs'.outgoing⟩

instance (s : Session) : (e : Event) → Decidable (StepClean s e)
  | .handleread (some d) _ => inferInstanceAs (Decidable
      ((d.length : Int) ≤ s.conn.inbuffer_.writesize ∨ s.conn.inbuffer_.writesize = 0))
  | .handleread none _ => inferInstanceAs (Decidable False)
  | .handlewrite r => inferInstanceAs (Decidable (r ≠ none))
  | .sendinloop _ _ => inferInstanceAs (Decidable True)
  | .shutdown => inferInstanceAs (Decidable True)

/-- Reads into a tail with room and into a full buffer, and a queue that is drained. -/
theorem streams_intact_iff_clean :
    conn.Always StepIntact (since (.new 7 2)) [.handleread (some (bytes "ab")) 0,
      .handleread (some (bytes "cde")) 4, .sendinloop (bytes "xy") 1, .handlewrite (some 1)] :=
  (streams_intact_iff (by decide) (by decide) (by decide +kernel)).mpr (by decide +kernel)

/-- A failed `readv` takes the one unread byte away; in a run, the byte `readv` had
delivered before it is never seen. -/
theorem failed_call_loses_byte :
    (¬∀ b : Buffer, b.Valid → ∃ b', b.read none = .ok (-1, b') ∧ b.Same b') ∧
    ¬∀ (c : TcpConnect) (es : List Event) (s : Session), c.inbuffer_.Valid → c.outbuffer_.Valid →
      conn.Run (since c) es s → s.consumed ++ s.conn.inbuffer_.content = s.delivered := by
  constructor
  · intro h
    obtain ⟨b', hb', hsame⟩ := h ⟨0, 1, [65]⟩ (by decide)
    rw [Buffer.read_failed _ (by decide), Except.ok.injEq, Prod.mk.injEq] at hb'
    obtain ⟨-, rfl⟩ := hb'
    exact absurd hsame.2.1 (by decide)
  · intro h
    have hrun : ∃ s, conn.exec (since (.new 7 4)) [.handleread (some (bytes "A")) 0,
        .handleread none 0] = some s ∧ s.consumed ++ s.conn.inbuffer_.content ≠ s.delivered :=
      ⟨_, rfl, by decide⟩
    obtain ⟨s, hs, hne⟩ := hrun
    exact hne (h _ _ s (by decide) (by decide) (conn.exec_iff.mp hs))

/-! ### A send that is refused -/

/-- The bytes of the sends among the events. -/
def sent : List Event → Bytes
  | [] => []
  | .sendinloop str _ :: es => str ++ sent es
  | _ :: es => sent es

theorem record_queued (c : TcpConnect) : ∀ (fx : List Effect) (s : Session), (s.record c fx).queued = s.queued
  | [], _ => rfl
  | .write _ :: fx, _ => record_queued c fx _
  | .shutdown _ :: fx, _ => record_queued c fx _
  | .closecallback :: fx, s => record_queued c fx s

theorem step_queued {s t : Session} {e : Event} (h : s.step e = .ok t) : t.queued = s.queued ++ sent [e] := by
  cases e with
  | handleread r k =>
    obtain ⟨⟨c, fx⟩, -, hp⟩ := bind_ok h
    have ht := Except.ok.inj hp
    rw [← ht, record_queued]
    exact (List.append_nil _).symm
  | handlewrite r =>
    obtain ⟨⟨c, fx⟩, -, hp⟩ := bind_ok h
    have ht := Except.ok.inj hp
    rw [← ht, record_queued]
    exact (List.append_nil _).symm
  | sendinloop str n =>
    obtain ⟨⟨c, fx⟩, -, hp⟩ := bind_ok h
    have ht := Except.ok.inj hp
    rw [← ht, record_queued]
    show s.queued ++ str = s.queued ++ (str ++ [])
    rw [List.append_nil]
  | shutdown =>
    have ht := Except.ok.inj h
    rw [← ht, record_queued]
    exact (List.append_nil _).symm

/-- What was given to `sendinloop` is what the events say. -/
theorem queued_of_run {s t : Session} {es : List Event} (h : output.Run s es t) :
    t.queued = s.queued ++ sent es := by
  induction h with
  | nil => exact (List.append_nil _).symm
  | @cons s u t e es _ hs _ ih =>
    have hsent : sent (e :: es) = sent [e] ++ sent es := by cases e <;> simp [sent]
    calc t.queued = s.queued ++ sent [e] ++ sent es := by rw [ih, step_queued hs]
      _ = s.queued ++ sent (e :: es) := by rw [hsent, List.append_assoc]

/-- A send whose `::write` returns `r` is handled and leaves just its bytes in the queue, with write
interest on; and whatever is sent and drained from there on, the kernel gets them first, in order. -/
def Queues (c : TcpConnect) (str : Bytes) (r : Option ℕ) : Prop :=
  ∃ c' fx, c.sendinloop str r = .ok (c', fx) ∧ c'.outbuffer_.content = str ∧ c'.channel_.iswriting = true ∧
    ∀ es t, output.Run (since c') es t →
      t.accepted ++ t.conn.outbuffer_.content = str ++ sent es ∧
        ∀ e, output.guard t e → ∃ u, output.step t e = .ok u

/-- A write that takes no byte is how it is meant. -/
theorem queues_untaken {c : TcpConnect} (hv : c.outbuffer_.Valid) (hempty : c.outbuffer_.content = [])
    {str : Bytes} (hne : str ≠ []) : Queues c str (some 0) := by
  obtain ⟨out, channel, hsend, hval, hcont, hwr⟩ := c.sendinloop_spec hv (Nat.zero_le str.length)
  have hzero : c.sentNow 0 = 0 := by rw [TcpConnect.sentNow, ite_self]
  rw [hzero, List.drop_zero] at hcont hwr
  rw [hempty, List.nil_append] at hcont
  have hwriting : channel.iswriting = true := hwr.mpr (.inr hne)
  refine ⟨_, _, hsend, hcont, hwriting, ?_⟩
  intro es t hrun
  have hgood : OutGood (since { c with outbuffer_ := out, channel_ := channel }) :=
    ⟨hval, rfl, iff_of_true hwriting (hcont ▸ hne)⟩
  have ht := outGood_of_run hrun hgood
  constructor
  · calc t.accepted ++ t.conn.outbuffer_.content = out.content ++ sent es := by rw [ht.order, queued_of_run hrun]; rfl
      _ = str ++ sent es := by rw [hcont]
  · intro e hg
    obtain ⟨u, hu, -⟩ := out_step ht hg
    exact ⟨u, hu⟩

/-- The assertion of `sendinloop` is about what `::write` returned. -/
theorem sendinloop_refused {c : TcpConnect} (h : c.direct = true) (str : Bytes) :
    c.sendinloop str none = .error .assertion := by
  have hdir : (!c.channel_.iswriting && c.outbuffer_.readsize == 0) = true := h
  unfold TcpConnect.sendinloop
  dsimp only
  rw [hdir]
  rfl

/-- **No refused send is queued.** -/
theorem refused_send_fails {c : TcpConnect} (hempty : c.outbuffer_.readsize = 0)
    (hoff : c.channel_.iswriting = false) (str : Bytes) : ¬Queues c str none := by
  have hdir : c.direct = true := by
    unfold TcpConnect.direct
    rw [hempty, hoff]
    rfl
  intro h
  obtain ⟨c', fx, hc, -⟩ := h
  rw [sendinloop_refused hdir] at hc
  cases hc

/-- The first send of a connection, on a socket with a full send buffer. -/
theorem refused_send_fails_first : ¬Queues (TcpConnect.new 7 4).conestablish (bytes "abc") none :=
  refused_send_fails (by decide) (by decide) _

/-- The same send with a write that takes nothing, and with one that is refused. -/
theorem refused_send_asserts :
    (TcpConnect.new 7 4).conestablish.sendinloop (bytes "abc") none = .error .assertion ∧
      ¬∀ (c : TcpConnect) (str : Bytes), c.state_ = .kconnected → c.outbuffer_.Valid →
        c.outbuffer_.content = [] → c.channel_.iswriting = false → str ≠ [] → Queues c str none := by
  have hassert : (TcpConnect.new 7 4).conestablish.sendinloop (bytes "abc") none = .error .assertion := by decide
  refine ⟨hassert, ?_⟩
  intro h
  obtain ⟨c', fx, hc, -⟩ := h (TcpConnect.new 7 4).conestablish (bytes "abc") rfl (by decide) rfl rfl (by decide)
  rw [hassert] at hc
  cases hc

end MuduoSe
