/-
# From the listening socket to the loops

A `TcpServer` is the `func` of its `Acceptor`: the descriptors that `accept` returned are those of its
connections, in this order. A descriptor that is closed can be returned again, and then an event of the
new socket would go to the channel of the old one. While no connection is destroyed, none is. As in
`TcpEstablish`, the server neither sends nor receives.

* `clients_watched`: the channel that the `epoll` of a loop returns for a descriptor is that of an
  established connection of the loop whose peer has not closed it, and the descriptor is still that of the
  client with which it was accepted; no two loops watch the same one.

The two runs are apart: a loop may establish a connection at any time after it was accepted, and the
acceptor may accept others first.

Key definitions: `Acceptor.given`, `Acceptor.socket`, `TcpServer.watches`, `TcpServer.Placed`.
Key theorems: `Placed.step`, `accepts_run`, `watches_iff`, `clients_watched`.
-/
import MuduoSe.Net.AcceptSpare
import MuduoSe.Net.TcpEstablish

namespace MuduoSe

variable {κ : Type}

/-! ### The descriptors -/

namespace Acceptor

/-- The clients that `func` was given, with their descriptors. -/
def given (s : Acceptor κ) : List (κ × ℤ) := s.taken.filterMap fun x => x.2.map fun fd => (x.1, fd)

/-- The descriptors of the connections of a server, which numbers them from 1 on. -/
def socket (s : Acceptor κ) : ℕ → ℤ
  | 0 => -1
  | c + 1 => s.fd c

variable {s : Acceptor κ}

theorem given_fds : s.given.map Prod.snd = s.taken.filterMap Prod.snd := by
  unfold given
  rw [List.map_filterMap]
  refine congrArg (List.filterMap · s.taken) (funext fun x => ?_)
  rw [Option.map_map]
  exact Option.map_id'

theorem given_length : s.given.length = s.connections := by
  rw [← List.length_map Prod.snd, given_fds]
  rfl

theorem mem_taken {x : κ} {d : ℤ} (h : (x, d) ∈ s.given) : (x, some d) ∈ s.taken := by
  obtain ⟨⟨y, o⟩, hy, ho⟩ := List.mem_filterMap.mp h
  obtain ⟨n, hn, he⟩ := Option.map_eq_some_iff.mp ho
  obtain ⟨rfl, rfl⟩ := Prod.mk.inj he
  obtain rfl : o = some n := hn
  exact hy

/-- The connection `c` is that of the `c`-th client that was given, and its descriptor is still open. -/
theorem Apart.client (h : s.Apart) {c : ℕ} (h0 : 1 ≤ c) (hc : c ≤ s.connections) :
    ∃ x, s.given[c - 1]? = some (x, s.socket c) ∧ s.files.file (s.socket c) = some (.client x) := by
  obtain ⟨k, rfl⟩ := Nat.exists_eq_add_of_le' h0
  have hlt : k < s.given.length := given_length.symm ▸ hc
  have hget : s.given[k]? = some s.given[k] := List.getElem?_eq_getElem hlt
  have hfd : s.socket (k + 1) = (s.given[k]).2 := by
    show s.fd k = _
    unfold fd
    rw [← given_fds, List.getD_eq_getElem?_getD, List.getElem?_map, hget]
    rfl
  refine ⟨(s.given[k]).1, ?_, ?_⟩
  · rw [hfd]
    exact hget
  · rw [hfd]
    exact h.opened _ _ (mem_taken (List.getElem_mem hlt))

theorem Apart.fd_nonneg (h : s.Apart) (k : ℕ) : 0 ≤ s.fd k := by
  rcases Nat.lt_or_ge k s.connections with hlt | hge
  · obtain ⟨x, -, hx⟩ := h.client (c := k + 1) (by omega) hlt
    exact (s.files.inside (Option.isSome_of_eq_some hx)).1
  · unfold fd
    rw [List.getD_eq_getElem?_getD, List.getElem?_eq_none hge]
    show 0 ≤ (s.files.limit : ℤ) + k
    omega

theorem Apart.socket_injective (h : s.Apart) : Function.Injective s.socket := by
  intro a b hab
  cases a with
  | zero =>
    cases b with
    | zero => rfl
    | succ b =>
      have hb : -1 = s.fd b := hab
      have h0 := h.fd_nonneg b
      omega
  | succ a =>
    cases b with
    | zero =>
      have ha : s.fd a = -1 := hab
      have h0 := h.fd_nonneg a
      omega
    | succ b => exact congrArg (· + 1) (h.injective hab)

end Acceptor

/-! ### The loops -/

def ServerEvent.accepts : ServerEvent → Bool
  | .newconn _ => true
  | _ => false

namespace TcpServer

open EpollPoller

/-- The connection whose channel the `epoll_wait` of the loop `l` returns for an event of `d`. -/
def watches (s : TcpServer) (l : ℕ) (d : ℤ) : Option ℕ :=
  ((s.loops l).poller.poller.epollfd_.interest d).map EpollEvent.ptr

/-- The channel of a connection is in no other loop than its own; the connections count from 1 on. -/
structure Placed (s : TcpServer) : Prop where
  own : ∀ l c, ((s.loops l).poller.channel c).index_ ≠ knew → ∃ k, s.object c = some k ∧ k.loop_ = l
  first : s.object 0 = none
  count : 1 ≤ s.connid_

variable {fd : ℕ → ℤ} {s t : TcpServer} {c l : ℕ} {k : Accepted}

theorem Placed.put (h : s.Placed) (hk : s.object c = some k) {a : Attached ℕ}
    (hother : ∀ d, d ≠ c → a.loop_.channel d = (s.loops k.loop_).poller.channel d) : (s.put c k a).Placed where
  own l d hin := by
    by_cases hd : d = c
    · subst hd
      refine ⟨_, put_object_self, ?_⟩
      rw [put_poller] at hin
      split_ifs at hin with hl
      · exact hl.symm
      · obtain ⟨j, hj, hloop⟩ := h.own l d hin
        rw [hk, Option.some.injEq] at hj
        exact hj ▸ hloop
    · rw [put_channel hother l hd] at hin
      rw [put_object_of_ne hd]
      exact h.own l d hin
  first := by
    rw [put_object_of_ne]
    · exact h.first
    · rintro rfl
      rw [h.first] at hk
      cases hk
  count := h.count

theorem Placed.setpend (h : s.Placed) (l : ℕ) (fs : List ServerFunctor) : (s.setpend l fs).Placed where
  own m d hin := by
    rw [setpend_poller] at hin
    exact h.own m d hin
  first := h.first
  count := h.count

theorem Placed.accept (h : s.Placed) (hi : Inv fd s) (pool : EventLoopThreadPool) (m cap : ℕ) :
    (s.accept pool m cap).Placed where
  own l d hin := by
    rw [accept_object, if_neg]
    · exact h.own l d hin
    · rintro rfl
      exact hin ((hi.fresh _ le_rfl).2 l)
  first := by
    rw [accept_object, if_neg (Nat.ne_of_lt h.count)]
    exact h.first
  count := Nat.le_succ_of_le h.count

/-- What an event does to the places of the channels, and to the number of connections. -/
theorem Placed.step (h : s.Placed) (hi : Inv fd s) (hfd : Function.Injective fd) {e : ServerEvent}
    (hg : tcpServer.guard s e) (ht : tcpServer.step s e = .ok t) :
    t.Placed ∧ t.connid_ = s.connid_ + e.accepts.toNat := by
  cases e with
  | newconn cap =>
    obtain ⟨pool, m, ht⟩ := newconn_eq ht
    have hobj := (accept_object s pool m cap s.connid_).trans (if_pos rfl)
    have hp := h.accept hi pool m cap
    unfold runinloop at ht
    split_ifs at ht
    · obtain ⟨a, ha, -, -, hother⟩ := conestablish_up (hi.accept pool m cap) hfd hobj ((hi.fresh _ le_rfl).2 m)
      obtain rfl := Except.ok.inj (ha.symm.trans ht)
      exact ⟨hp.put hobj hother, rfl⟩
    · obtain rfl := Except.ok.inj ht
      exact ⟨hp.setpend .., rfl⟩
  | functor m =>
    cases hl : (s.loops m).pendfunclists_ with
    | nil => exact absurd hl hg
    | cons f fs =>
      obtain ⟨c, k, a, -, hk, hrun, -, -, hother⟩ := functor_runs hi hfd hl
      obtain rfl := Except.ok.inj (hrun.symm.trans ht)
      refine ⟨(h.setpend m fs).put hk fun d hd => ?_, rfl⟩
      rw [setpend_poller]
      exact hother d hd
  | peerclose c =>
    obtain ⟨k, a, hk, rfl, -, hother⟩ := peerclose_eq hi hfd hg ht
    exact ⟨h.put hk hother, rfl⟩

/-- After any run: every channel is in the loop of its connection, and every accepted connection has a
number. -/
theorem accepts_run (hfd : Function.Injective fd) {multi : Bool} {num : ℤ} {es : List ServerEvent}
    (h : tcpServer.Run (.start fd multi num) es s) : s.Placed ∧ s.connid_ = es.countP ServerEvent.accepts + 1 := by
  have hall : Inv fd s ∧ s.Placed ∧ s.connid_ = es.countP ServerEvent.accepts + 1 := by
    refine h.history (P := fun es s => Inv fd s ∧ s.Placed ∧ s.connid_ = es.countP ServerEvent.accepts + 1) ?_ ?_
    · exact ⟨Inv.start fd multi num, ⟨fun l c hin => absurd rfl hin, rfl, le_rfl⟩, rfl⟩
    · intro es s e t _ ⟨hi, hp, hcount⟩ hg ht
      obtain ⟨hplaced, hconn⟩ := hp.step hi hfd hg ht
      refine ⟨(hi.step hfd hg ht).1, hplaced, ?_⟩
      rw [hconn, hcount, List.countP_append, List.countP_singleton]
      cases e.accepts
      · rfl
      · exact Nat.add_right_comm ..
  exact hall.2

/-- What a loop watches, after any run. -/
theorem watches_iff (hfd : Function.Injective fd) {multi : Bool} {num : ℤ} {es : List ServerEvent}
    (h : tcpServer.Run (.start fd multi num) es s) {d : ℤ} : s.watches l d = some c ↔
      fd c = d ∧ c ∈ s.connections l ∧ c ∉ s.queued l ∧ .peerclose c ∉ es := by
  obtain ⟨hi, he⟩ := establishes_run hfd h
  obtain ⟨-, hclosed⟩ := Inv.run hfd h
  obtain ⟨hplaced, -⟩ := accepts_run hfd h
  have hin : s.watches l d = some c ↔ fd c = d ∧ ((s.loops l).poller.channel c).index_ = kin := by
    unfold watches
    rw [Option.map_eq_some_iff, ← (hi.pollers l).fds c]
    constructor
    · rintro ⟨ev, hev, rfl⟩
      obtain ⟨hd, hix, -⟩ := ((hi.pollers l).interest d ev).mp hev
      exact ⟨hd, hix⟩
    · rintro ⟨hd, hix⟩
      exact ⟨⟨((s.loops l).poller.channel c).events_, c⟩,
        ((hi.pollers l).interest d _).mpr ⟨hd, hix, rfl⟩, rfl⟩
  rw [hin, mem_connections hi, mem_queued hi, ← hclosed]
  refine and_congr_right fun _ => ⟨fun hix => ?_, ?_⟩
  · obtain ⟨k, hk, rfl⟩ := hplaced.own l c fun hnew => absurd (hix.symm.trans hnew) (by decide)
    refine ⟨⟨k, hk, rfl⟩, fun hpend => ?_, ?_⟩
    · obtain ⟨d, j, hd, hj, -, -, hnew⟩ := hi.pending _ _ hpend
      obtain rfl := ServerFunctor.conestablish.inj hd
      rw [hk, Option.some.injEq] at hj
      subst hj
      exact absurd (hix.symm.trans hnew) (by decide)
    · rintro ⟨j, hj, hdel⟩
      rw [hk, Option.some.injEq] at hj
      subst hj
      exact absurd (hix.symm.trans (hi.closed c k hk hdel)) (by decide)
  · rintro ⟨⟨k, hk, rfl⟩, hpend, hopen⟩
    refine he.up c k hk ?_ hpend
    by_contra hdel
    exact hopen ⟨k, hk, by simpa using hdel⟩

end TcpServer

open Acceptor TcpServer

/-- **No loop watches a descriptor for a connection that is not the one it was accepted for.** The acceptor and
the loops run in any interleaving in which a connection is accepted before the server has it. -/
theorem clients_watched {files : Descriptors (Holder κ)} {as : List (AcceptEvent κ)} {s : Acceptor κ}
    (hfiles : ∀ fd h, files.file fd = some h → h = .other) (h : acceptor.Run (.new files true) as s)
    (has : ∀ fd, .destroy fd ∉ as) {multi : Bool} {num : ℤ} {es : List ServerEvent} {t : TcpServer}
    (ht : tcpServer.Run (.start s.socket multi num) es t) (hcount : es.countP ServerEvent.accepts ≤ s.connections) :
    (∀ l d c, t.watches l d = some c ↔
      s.socket c = d ∧ c ∈ t.connections l ∧ c ∉ t.queued l ∧ .peerclose c ∉ es) ∧
    (∀ l, ∀ c ∈ t.connections l, ∃ x, s.given[c - 1]? = some (x, s.socket c) ∧
      s.files.file (s.socket c) = some (.client x)) ∧
    ∀ l m d, (t.watches l d).isSome = true → (t.watches m d).isSome = true → l = m := by
  obtain ⟨hapart, -⟩ := connections_apart hfiles h has
  have hfd := hapart.socket_injective
  obtain ⟨hi, -⟩ := Inv.run hfd ht
  refine ⟨fun l d c => watches_iff hfd ht, fun l c hc => ?_, fun l m d hl hm => ?_⟩
  · obtain ⟨k, hk, -⟩ := (mem_connections hi).mp hc
    obtain ⟨hplaced, hconn⟩ := accepts_run hfd ht
    have hlt : c < t.connid_ := List.mem_range.mp (List.mem_filter.mp hc).1
    have h0 : c ≠ 0 := by
      rintro rfl
      rw [hplaced.first] at hk
      cases hk
    exact hapart.client (by omega) (by omega)
  · obtain ⟨c, hc⟩ := Option.isSome_iff_exists.mp hl
    obtain ⟨b, hb⟩ := Option.isSome_iff_exists.mp hm
    obtain ⟨hcd, hcl, -⟩ := (watches_iff hfd ht).mp hc
    obtain ⟨hbd, hbm, -⟩ := (watches_iff hfd ht).mp hb
    obtain rfl := hfd (hcd.trans hbd.symm)
    obtain ⟨k, hk, rfl⟩ := (mem_connections hi).mp hcl
    obtain ⟨j, hj, rfl⟩ := (mem_connections hi).mp hbm
    rw [hk, Option.some.injEq] at hj
    rw [hj]

/-- Two clients are connected and the third is turned away. -/
def thirdClient : List (AcceptEvent ℕ) :=
  [.arrive 7, .handleRead, .arrive 8, .handleRead, .arrive 9, .handleRead, .turnAway, .turnAway, .turnAway, .turnAway]

theorem clients_watched_thirdClient : ∃ s t, acceptor.Run (.new (.empty 4) true) thirdClient s ∧
    tcpServer.Run (.start s.socket true 2) [.newconn 4, .newconn 4, .functor 2, .functor 1, .peerclose 1] t ∧
    s.given = [(7, 2), (8, 3)] ∧ t.connections 2 = [2] ∧ t.watches 2 3 = some 2 ∧
    ∃ x, s.given[1]? = some (x, s.socket 2) ∧ s.files.file (s.socket 2) = some (.client x) := by
  have hrun : (acceptor.exec (.new (.empty 4) true) thirdClient).map
      (fun s => (s.given, s.socket 2, (tcpServer.exec (.start s.socket true 2)
        [.newconn 4, .newconn 4, .functor 2, .functor 1, .peerclose 1]).map
          fun t => (t.connections 2, t.queued 2))) =
      some ([(7, 2), (8, 3)], 3, some ([2], [])) := by
    decide +kernel
  obtain ⟨s, hs, hview⟩ := acceptor.exec_map_iff.mp hrun
  simp only [Prod.mk.injEq] at hview
  obtain ⟨hgiven, hsocket, hserver⟩ := hview
  obtain ⟨t, ht, hview⟩ := tcpServer.exec_map_iff.mp hserver
  obtain ⟨hconn, hqueued⟩ := Prod.mk.inj hview
  have hcount : s.connections = 2 := by
    rw [← given_length, hgiven]
    rfl
  obtain ⟨hwatch, hclient, -⟩ := clients_watched (empty_other 4) hs (by simp [thirdClient]) ht hcount.ge
  have hin : 2 ∈ t.connections 2 := hconn ▸ List.mem_singleton_self 2
  have hestablished : 2 ∉ t.queued 2 := hqueued ▸ List.not_mem_nil
  exact ⟨s, t, hs, ht, hgiven, hconn, (hwatch 2 3 2).mpr ⟨hsocket, hin, hestablished, by decide⟩, hclient 2 2 hin⟩

end MuduoSe
