/-
# No accepted connection is lost

`newconn` hands every connection to a loop, which establishes it at once, in the thread of the acceptor,
or when it runs the functor that was queued. Until then its channel is not registered and no event of
its socket can be seen. The server of these runs accepts and its peers close: it neither sends nor
receives, nor shuts a connection down; what these do to a closed connection is in `TcpClosed`.

* `connections_established`: of the connections that a loop was given, those that are queued in it are the
  last ones, in the order in which they were accepted, and exactly the others are watched, unless
  their peers have closed them.
* `loop_catches_up`: a loop that runs the functors queued in it never fails at one, and then watches
  every open connection that it was given.

Key definitions: `TcpServer.connections`, `TcpServer.Establishes`.
Key theorems: `Establishes.step`, `functor_runs`, `connections_established`, `loop_catches_up`.
-/
import MuduoSe.Net.TcpServer

namespace MuduoSe

def ServerFunctor.connection : ServerFunctor → ℕ
  | .conestablish c | .delchannel c => c

namespace TcpServer

open EpollPoller

/-- The connections of the loop `l`, in the order in which they were accepted. -/
def connections (s : TcpServer) (l : ℕ) : List ℕ :=
  (List.range s.connid_).filter fun c => (s.object c).any fun k => k.loop_ == l

/-- The connections that wait to be established by the loop `l`. -/
def queued (s : TcpServer) (l : ℕ) : List ℕ := (s.loops l).pendfunclists_.map ServerFunctor.connection

/-- What is queued is the last that was accepted; what is not queued and not closed is registered. -/
structure Establishes (s : TcpServer) : Prop where
  order : ∀ l, s.queued l <:+ s.connections l
  here : (s.loops 0).pendfunclists_ = []
  up : ∀ c k, s.object c = some k → k.deleted = false →
    .conestablish c ∉ (s.loops k.loop_).pendfunclists_ → (s.chan c k).index_ = kin

variable {fd : ℕ → ℤ} {s t : TcpServer} {c d l : ℕ} {k : Accepted}

/-! ### What the steps leave -/

theorem put_queued {a : Attached ℕ} : (s.put c k a).queued l = s.queued l := by
  unfold queued
  rw [put_pend]

/-- A connection stays in its loop. -/
theorem put_connections {a : Attached ℕ} (hk : s.object c = some k) :
    (s.put c k a).connections l = s.connections l := by
  unfold connections
  refine List.filter_congr fun d _ => ?_
  by_cases hd : d = c
  · rw [hd, put_object_self, hk]
    rfl
  · rw [put_object_of_ne hd]

theorem accept_connections {pool : EventLoopThreadPool} {m cap : ℕ} :
    (s.accept pool m cap).connections l = s.connections l ++ if l = m then [s.connid_] else [] := by
  have hobj := accept_object s pool m cap
  show (List.range (s.connid_ + 1)).filter _ = _
  rw [List.range_succ, List.filter_append]
  congr 1
  · refine List.filter_congr fun c hc => ?_
    have hlt := List.mem_range.mp hc
    rw [hobj, if_neg (by omega)]
  · rw [List.filter_singleton, hobj, if_pos rfl]
    by_cases hl : l = m
    · simp [hl]
    · rw [if_neg hl]
      show (bif m == l then [s.connid_] else []) = []
      rw [beq_eq_false_iff_ne.mpr (Ne.symm hl)]
      rfl

/-- `conestablish` registers the channel of the connection. -/
theorem conestablish_up (h : Inv fd s) (hfd : Function.Injective fd) (hk : s.object c = some k)
    (hnew : (s.chan c k).index_ = knew) : ∃ a, s.conestablish c = .ok (s.put c k a) ∧ a.deleted = k.deleted ∧
      (a.loop_.channel c).index_ = kin ∧ ∀ d, d ≠ c → a.loop_.channel d = (s.loops k.loop_).poller.channel d := by
  obtain ⟨p, hp, -, hchan, hother⟩ := (s.attached c k).upevent_spec (h.pollers k.loop_) hfd .enread
  refine ⟨{ s.attached c k with loop_ := p }, ?_, rfl, ?_, hother⟩
  · rw [TcpServer.conestablish, hk]
    dsimp only
    rw [Attached.conestablish, hp]
    rfl
  · show (p.channel c).index_ = kin
    have hix : (s.attached c k).chan.index_ = knew := hnew
    rw [show p.channel c = _ from hchan]
    show indexUp (s.attached c k).chan.index_ _ = kin
    rw [hix]
    exact if_neg fun hne => absurd hne.1 (by decide)

/-- `handledel` of a connection that is watched. -/
theorem peerclose_eq (h : Inv fd s) (hfd : Function.Injective fd) (hw : s.watched c = true)
    (ht : s.peerclose c = .ok t) : ∃ k a, s.object c = some k ∧ t = s.put c k a ∧ a.deleted = true ∧
      ∀ d, d ≠ c → a.loop_.channel d = (s.loops k.loop_).poller.channel d := by
  obtain ⟨k, hk, -⟩ := h.watched hfd hw
  rw [TcpServer.peerclose, hk] at ht
  obtain ⟨⟨a, fx⟩, ha, ht⟩ := bind_ok ht
  obtain ⟨b, p, rfl, rfl, -, -, hother⟩ := Attached.handleread_closes (h.pollers k.loop_) hfd ha
  exact ⟨k, _, hk, (Except.ok.inj ht).symm, rfl, hother⟩

/-- A connection of which nothing is queued becomes `a`. -/
theorem Establishes.put (h : s.Establishes) (hk : s.object c = some k) {a : Attached ℕ}
    (hother : ∀ d, d ≠ c → a.loop_.channel d = (s.loops k.loop_).poller.channel d)
    (hup : a.deleted = false → (a.loop_.channel c).index_ = kin) : (s.put c k a).Establishes where
  order l := by
    rw [put_queued, put_connections hk]
    exact h.order l
  here := by
    rw [put_pend]
    exact h.here
  up d j hj hdel hin := by
    rw [put_pend] at hin
    unfold chan
    by_cases hd : d = c
    · subst hd
      rw [put_object_self, Option.some.injEq] at hj
      subst hj
      rw [put_poller, if_pos rfl]
      exact hup hdel
    · rw [put_object_of_ne hd] at hj
      rw [put_channel hother _ hd]
      exact h.up d j hj hdel hin

theorem start_establishes (multi : Bool) (num : ℤ) : (start fd multi num).Establishes where
  order l := List.nil_suffix
  here := rfl
  up c k hk := by cases hk

/-- A connection is accepted. -/
theorem Establishes.newconn (h : s.Establishes) (hi : Inv fd s) (hfd : Function.Injective fd) {cap : ℕ}
    (ht : s.newconn cap = .ok t) : t.Establishes := by
  obtain ⟨pool, m, ht⟩ := newconn_eq ht
  have hia := hi.accept pool m cap
  have hnew := hi.fresh s.connid_ le_rfl
  have hobj := accept_object s pool m cap
  have hqueued : ∀ l, (s.accept pool m cap).queued l = s.queued l := fun _ => rfl
  have hup : ∀ c k, c ≠ s.connid_ → (s.accept pool m cap).object c = some k → k.deleted = false →
      .conestablish c ∉ (s.loops k.loop_).pendfunclists_ → ((s.accept pool m cap).chan c k).index_ = kin := by
    intro c k hc hk hdel hin
    rw [hobj, if_neg hc] at hk
    exact h.up c k hk hdel hin
  unfold runinloop at ht
  split_ifs at ht with hm
  · -- the loop of the acceptor establishes it at once
    obtain ⟨a, ha, -, hin, hother⟩ := conestablish_up hia hfd ((hobj _).trans (if_pos rfl)) (hnew.2 m)
    obtain rfl := Except.ok.inj (ha.symm.trans ht)
    refine ⟨fun l => ?_, ?_, fun c k hk hdel hpend => ?_⟩
    · rw [put_queued, put_connections ((hobj _).trans (if_pos rfl)), accept_connections, hqueued]
      split_ifs with hl
      · rw [hl, hm, show s.queued 0 = [] by unfold queued; rw [h.here]; rfl]
        exact List.nil_suffix
      · rw [List.append_nil]
        exact h.order l
    · rw [put_pend]
      exact h.here
    · rw [put_pend] at hpend
      unfold chan
      by_cases hc : c = s.connid_
      · subst hc
        rw [put_object_self, Option.some.injEq] at hk
        subst hk
        rw [put_poller, if_pos rfl]
        exact hin
      · rw [put_object_of_ne hc] at hk
        rw [put_channel hother _ hc]
        exact hup c k hc hk hdel hpend
  · obtain rfl := Except.ok.inj ht
    refine ⟨fun l => ?_, ?_, fun c k hk hdel hpend => ?_⟩
    · show List.map _ (((s.accept pool m cap).setpend m _).loops l).pendfunclists_ <:+
        (s.accept pool m cap).connections l
      rw [setpend_pend, accept_connections]
      split_ifs with hl
      · obtain ⟨done, hdone⟩ := h.order m
        rw [hl, List.map_append, ← hdone]
        exact ⟨done, (List.append_assoc _ _ _).symm⟩
      · rw [List.append_nil]
        exact h.order l
    · rw [setpend_pend, if_neg (Ne.symm hm)]
      exact h.here
    · rw [setpend_pend] at hpend
      unfold chan
      rw [setpend_poller]
      have hk : (s.accept pool m cap).object c = some k := hk
      by_cases hc : c = s.connid_
      · subst hc
        rw [hobj, if_pos rfl, Option.some.injEq] at hk
        subst hk
        rw [if_pos rfl] at hpend
        exact absurd (List.mem_append_right _ (List.mem_singleton_self _)) hpend
      · refine hup c k hc hk hdel fun hin => hpend ?_
        split_ifs with hl
        · rw [← hl]
          exact List.mem_append_left _ hin
        · exact hin

/-- **A loop runs its first functor**: it establishes a connection, and cannot fail. -/
theorem functor_runs (hi : Inv fd s) (hfd : Function.Injective fd) {f : ServerFunctor} {fs : List ServerFunctor}
    (hl : (s.loops l).pendfunclists_ = f :: fs) : ∃ c k a, f = .conestablish c ∧ s.object c = some k ∧
      s.dofunctor l = .ok ((s.setpend l fs).put c k a) ∧ a.deleted = k.deleted ∧
      (a.loop_.channel c).index_ = kin ∧ ∀ d, d ≠ c → a.loop_.channel d = (s.loops k.loop_).poller.channel d := by
  obtain ⟨hpop, -⟩ := hi.pop hl
  obtain ⟨c, k, rfl, hk, -, -, hnew⟩ := hi.pending l f (by rw [hl]; exact List.mem_cons_self)
  have hchan : ((s.setpend l fs).chan c k).index_ = knew := by
    unfold chan
    rw [setpend_poller]
    exact hnew
  obtain ⟨a, ha, hdel, hin, hother⟩ := conestablish_up hpop hfd hk hchan
  refine ⟨c, k, a, rfl, hk, ?_, hdel, hin, fun d hd => ?_⟩
  · unfold dofunctor
    rw [hl]
    exact ha
  · rw [hother d hd, setpend_poller]

theorem setpend_queued {fs : List ServerFunctor} {m : ℕ} :
    (s.setpend m fs).queued l = if l = m then fs.map ServerFunctor.connection else s.queued l := by
  unfold queued
  rw [setpend_pend]
  split_ifs <;> rfl

/-- Whatever happens to the server. -/
theorem Establishes.step (h : s.Establishes) (hi : Inv fd s) (hfd : Function.Injective fd) {e : ServerEvent}
    (hg : tcpServer.guard s e) (ht : tcpServer.step s e = .ok t) : t.Establishes := by
  cases e with
  | newconn cap => exact h.newconn hi hfd ht
  | functor m =>
    cases hl : (s.loops m).pendfunclists_ with
    | nil => exact absurd hl hg
    | cons f fs =>
      obtain ⟨c, k, a, rfl, hk, hrun, -, hin, hother⟩ := functor_runs hi hfd hl
      obtain rfl := Except.ok.inj (hrun.symm.trans ht)
      have hm : m ≠ 0 := fun hm => by
        rw [hm, h.here] at hl
        cases hl
      have hput : ∀ l, ((s.setpend m fs).put c k a).queued l =
          if l = m then fs.map ServerFunctor.connection else s.queued l := fun l => by
        rw [put_queued, setpend_queued]
      refine ⟨fun l => ?_, ?_, fun d j hj hdel hpend => ?_⟩
      · rw [hput, put_connections (s := s.setpend m fs) hk]
        show _ <:+ s.connections l
        split_ifs with hlm
        · refine List.IsSuffix.trans ?_ (h.order l)
          unfold queued
          rw [hlm, hl]
          exact List.suffix_cons _ _
        · exact h.order l
      · rw [put_pend, setpend_pend, if_neg hm.symm]
        exact h.here
      · rw [put_pend, setpend_pend] at hpend
        unfold chan
        by_cases hd : d = c
        · subst hd
          rw [put_object_self, Option.some.injEq] at hj
          subst hj
          rw [put_poller, if_pos rfl]
          exact hin
        · rw [put_object_of_ne hd] at hj
          rw [put_channel (fun d hd => by rw [setpend_poller]; exact hother d hd) _ hd, setpend_poller]
          refine h.up d j hj hdel fun hin' => hpend ?_
          split_ifs with hlm
          · rw [hlm, hl] at hin'
            exact (List.mem_cons.mp hin').resolve_left fun he => hd (ServerFunctor.conestablish.inj he)
          · exact hin'
  | peerclose c =>
    obtain ⟨k, a, hk, rfl, hdel, hother⟩ := peerclose_eq hi hfd hg ht
    refine h.put hk hother fun hopen => ?_
    rw [hdel] at hopen
    cases hopen

/-- A connection is watched once it is established, until its peer closes it. -/
theorem Establishes.watched_iff (h : s.Establishes) (hi : Inv fd s) (hfd : Function.Injective fd)
    (hk : s.object c = some k) :
    s.watched c = true ↔ k.deleted = false ∧ .conestablish c ∉ (s.loops k.loop_).pendfunclists_ := by
  have hwatched : s.watched c = true ↔ (s.chan c k).index_ = kin := by
    unfold TcpServer.watched chan
    rw [hk]
    dsimp only
    rw [(hi.pollers k.loop_).interest_self hfd c]
    split_ifs with hin
    · exact ⟨fun _ => hin, fun _ => rfl⟩
    · exact ⟨nofun, fun he => absurd he hin⟩
  rw [hwatched]
  refine ⟨fun hin => ⟨?_, fun hpend => ?_⟩, fun ⟨hdel, hpend⟩ => h.up c k hk hdel hpend⟩
  · by_contra hdel
    rw [hi.closed c k hk (by simpa using hdel)] at hin
    exact absurd hin (by decide)
  · obtain ⟨d, j, he, hj, -, -, hnew⟩ := hi.pending _ _ hpend
    obtain rfl := ServerFunctor.conestablish.inj he
    rw [hk, Option.some.injEq] at hj
    subst hj
    rw [hin] at hnew
    exact absurd hnew (by decide)

/-- After any run. -/
theorem establishes_run (hfd : Function.Injective fd) {multi : Bool} {num : ℤ} {es : List ServerEvent}
    (h : tcpServer.Run (.start fd multi num) es s) : Inv fd s ∧ s.Establishes := by
  refine h.invariant (I := fun s => Inv fd s ∧ s.Establishes) (fun hi hg ht => ?_)
    ⟨Inv.start fd multi num, start_establishes multi num⟩
  exact ⟨(hi.1.step hfd hg ht).1, hi.2.step hi.1 hfd hg ht⟩

theorem mem_connections (hi : Inv fd s) : c ∈ s.connections l ↔ ∃ k, s.object c = some k ∧ k.loop_ = l := by
  unfold connections
  rw [List.mem_filter, List.mem_range, Option.any_eq_true]
  constructor
  · rintro ⟨-, k, hk, hl⟩
    exact ⟨k, hk, beq_iff_eq.mp hl⟩
  · rintro ⟨k, hk, hl⟩
    refine ⟨?_, k, hk, beq_iff_eq.mpr hl⟩
    by_contra hlt
    rw [(hi.fresh c (not_lt.mp hlt)).1] at hk
    cases hk

theorem mem_queued (hi : Inv fd s) : c ∈ s.queued l ↔ .conestablish c ∈ (s.loops l).pendfunclists_ := by
  unfold queued
  rw [List.mem_map]
  constructor
  · rintro ⟨f, hf, rfl⟩
    obtain ⟨d, -, rfl, -⟩ := hi.pending l f hf
    exact hf
  · exact fun hin => ⟨_, hin, rfl⟩

/-- The rounds of a loop, one functor each. -/
theorem rounds_run (hfd : Function.Injective fd) : ∀ {n : ℕ} {s : TcpServer}, Inv fd s → s.Establishes →
    (s.loops l).pendfunclists_.length = n → ∃ t, tcpServer.Run s (List.replicate n (.functor l)) t ∧ Inv fd t ∧
      t.Establishes ∧ t.queued l = [] ∧ t.connections l = s.connections l ∧ ∀ c, t.Closed c ↔ s.Closed c
  | 0, s, hi, he, hn => by
    refine ⟨s, .nil s, hi, he, ?_, rfl, fun _ => Iff.rfl⟩
    unfold queued
    rw [List.eq_nil_of_length_eq_zero hn]
    rfl
  | n + 1, s, hi, he, hn => by
    obtain ⟨f, fs, hl⟩ := List.exists_of_length_succ _ hn
    obtain ⟨c, k, a, -, hk, hrun, -⟩ := functor_runs hi hfd hl
    have hg : tcpServer.guard s (.functor l) := by
      show (s.loops l).pendfunclists_ ≠ []
      rw [hl]
      exact List.cons_ne_nil _ _
    have hs : tcpServer.step s (.functor l) = .ok ((s.setpend l fs).put c k a) := hrun
    obtain ⟨hinv, hclosed⟩ := hi.step hfd hg hs
    have hlen : (((s.setpend l fs).put c k a).loops l).pendfunclists_.length = n := by
      rw [put_pend, setpend_pend, if_pos rfl]
      rw [hl, List.length_cons] at hn
      omega
    obtain ⟨t, ht, hit, het, hnil, hconn, hsame⟩ := rounds_run hfd hinv (he.step hi hfd hg hs) hlen
    refine ⟨t, .cons hg hs ht, hit, het, hnil, ?_, fun d => ?_⟩
    · rw [hconn, put_connections (s := s.setpend l fs) hk]
      rfl
    · rw [hsame, hclosed]
      simp

end TcpServer

open TcpServer

section

variable {fd : ℕ → ℤ} {multi : Bool} {num : ℤ} {es : List ServerEvent} {s : TcpServer}

/-- **What a loop still has to establish is the last that it was given**, and what it has established is
watched until the peer closes. -/
theorem connections_established (hfd : Function.Injective fd) (h : tcpServer.Run (.start fd multi num) es s) (l : ℕ) :
    ∃ done, s.connections l = done ++ s.queued l ∧ (∀ c ∈ s.queued l, s.watched c = false) ∧
      ∀ c ∈ done, s.watched c = true ↔ .peerclose c ∉ es := by
  obtain ⟨hi, he⟩ := establishes_run hfd h
  obtain ⟨-, hclosed⟩ := Inv.run hfd h
  obtain ⟨done, hdone⟩ := he.order l
  refine ⟨done, hdone.symm, fun c hc => ?_, fun c hc => ?_⟩
  · have hpend := (mem_queued hi).mp hc
    obtain ⟨d, k, hd, hk, hl, -⟩ := hi.pending l _ hpend
    obtain rfl := ServerFunctor.conestablish.inj hd
    refine Bool.eq_false_iff.mpr fun hw => ?_
    rw [← hl] at hpend
    exact ((he.watched_iff hi hfd hk).mp hw).2 hpend
  · obtain ⟨k, hk, hl⟩ := (mem_connections hi).mp (hdone ▸ List.mem_append_left _ hc)
    -- every connection is accepted once
    have hnot : .conestablish c ∉ (s.loops k.loop_).pendfunclists_ := by
      rw [hl]
      intro hpend
      have hnodup : (s.connections l).Nodup := List.nodup_range.filter _
      rw [← hdone, List.nodup_append] at hnodup
      exact hnodup.2.2 c hc c ((mem_queued hi).mpr hpend) rfl
    rw [he.watched_iff hi hfd hk, ← hclosed, and_iff_left hnot]
    unfold Closed
    rw [hk]
    simp

/-- **A loop that runs its functors watches all of its open connections.** -/
theorem loop_catches_up (hfd : Function.Injective fd) (h : tcpServer.Run (.start fd multi num) es s) (l : ℕ) :
    ∃ t, tcpServer.Run s (List.replicate (s.queued l).length (.functor l)) t ∧ t.connections l = s.connections l ∧
      ∀ c ∈ s.connections l, t.watched c = true ↔ .peerclose c ∉ es := by
  obtain ⟨hi, he⟩ := establishes_run hfd h
  obtain ⟨-, hclosed⟩ := Inv.run hfd h
  obtain ⟨t, ht, hit, het, hnil, hconn, hsame⟩ := rounds_run (l := l) hfd hi he rfl
  have hlen : (s.queued l).length = (s.loops l).pendfunclists_.length := List.length_map _
  refine ⟨t, hlen ▸ ht, hconn, fun c hc => ?_⟩
  obtain ⟨k, hk, hl⟩ := (mem_connections hit).mp (hconn ▸ hc)
  have hnot : .conestablish c ∉ (t.loops k.loop_).pendfunclists_ := by
    rw [hl]
    intro hpend
    have hin := (mem_queued hit).mpr hpend
    rw [hnil] at hin
    cases hin
  rw [het.watched_iff hit hfd hk, ← hclosed, ← hsame, and_iff_left hnot]
  unfold Closed
  rw [hk]
  simp

end

/-- The descriptors from 5 on. -/
theorem fromFive_injective : Function.Injective fun c : ℕ => (c : ℤ) + 5 := by
  intro a b hab
  dsimp only at hab
  omega

/-- Four connections on two loops: the first loop has established one, whose peer has closed it. -/
def twoLoops : List ServerEvent :=
  [.newconn 4, .newconn 4, .newconn 4, .functor 1, .peerclose 1, .newconn 4, .functor 2]

theorem connections_established_twoLoops : ∃ s, tcpServer.Run (.start (fun c => c + 5) true 2) twoLoops s ∧
    s.connections 1 = [1, 3] ∧ s.queued 1 = [3] ∧ ∃ done, s.connections 1 = done ++ s.queued 1 ∧
      (∀ c ∈ s.queued 1, s.watched c = false) ∧ ∀ c ∈ done, s.watched c = true ↔ .peerclose c ∉ twoLoops := by
  have hrun : (tcpServer.exec (.start (fun c => c + 5) true 2) twoLoops).map
      (fun s => (s.connections 1, s.queued 1)) = some ([1, 3], [3]) := by
    decide +kernel
  obtain ⟨s, hs, hview⟩ := tcpServer.exec_map_iff.mp hrun
  obtain ⟨hconn, hqueued⟩ := Prod.mk.inj hview
  exact ⟨s, hs, hconn, hqueued, connections_established fromFive_injective hs 1⟩

theorem loop_catches_up_twoLoops : ∃ s t, tcpServer.Run (.start (fun c => c + 5) true 2) twoLoops s ∧
    tcpServer.Run s (List.replicate (s.queued 1).length (.functor 1)) t ∧ t.connections 1 = s.connections 1 ∧
      ∀ c ∈ s.connections 1, t.watched c = true ↔ .peerclose c ∉ twoLoops := by
  have hrun : (tcpServer.exec (.start (fun c => c + 5) true 2) twoLoops).map (fun s => s.queued 1) = some [3] := by
    decide +kernel
  obtain ⟨s, hs, -⟩ := tcpServer.exec_map_iff.mp hrun
  obtain ⟨t, ht⟩ := loop_catches_up fromFive_injective hs 1
  exact ⟨s, t, hs, ht⟩

end MuduoSe
