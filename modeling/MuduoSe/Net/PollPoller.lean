/-
# PollPoller: the poller over an array of descriptors

`net/PollPoller.h` and `net/PollPoller.cc`. The `index_` of a channel is the place of its
element in `pollffd_`, negative while it has none; the `fd` of the element of a channel that
watches nothing is negated to `-fd - 1`. `channel_map` maps descriptors to channels.

`removeChannel` erases the key `index_` of the map instead of the descriptor, and leaves
`index_` as it was. So the array and the map stay in bijection with the registered channels
exactly as long as no channel is removed.

Key definitions: `PollPoller.upChannel`, `PollPoller.removeChannel`,
`PollPoller.FillActiceChannel`, `PollPoller.Bijective`, `pollPoller`.
Key theorems: `PollPoller.Good.upevent`, `PollPoller.Good.fillActice`, `pollPoller_bijective_iff`.
-/
import MuduoSe.Net.Poller

namespace MuduoSe

/-- `struct pollfd`. -/
structure PollFd where
  fd : ℤ
  events : BitVec 16
  revents : BitVec 16
  deriving DecidableEq, Repr

/-- The descriptor of an element, also of one that is negated. -/
def PollFd.owner (p : PollFd) : ℤ := if p.fd < 0 then -p.fd - 1 else p.fd

structure PollPoller (ι : Type) where
  pollffd_ : List PollFd
  channel_map : ℤ → Option ι

namespace PollPoller

variable {ι : Type}

def new : PollPoller ι := ⟨[], fun _ => none⟩

/-- `pollffd_[id]`, where the vector has this element. -/
def at_ (p : PollPoller ι) (id : ℤ) : Res PollFd :=
  match p.pollffd_[id.toNat]? with
  | some pfd => if 0 ≤ id then .ok pfd else .error .outOfBounds
  | none => .error .outOfBounds

theorem at_ok {p : PollPoller ι} {id : ℤ} {pfd : PollFd} :
    p.at_ id = .ok pfd ↔ 0 ≤ id ∧ p.pollffd_[id.toNat]? = some pfd := by
  unfold at_
  cases p.pollffd_[id.toNat]? with
  | none => simp
  | some q =>
    by_cases h : 0 ≤ id
    · simp [h]
    · simp [h]

/-- An index that names an element is below the size. -/
theorem at_lt {p : PollPoller ι} {id : ℤ} {pfd : PollFd} (h : p.at_ id = .ok pfd) :
    0 ≤ id ∧ id < p.pollffd_.length := by
  obtain ⟨h0, hs⟩ := at_ok.mp h
  have := (List.getElem?_eq_some_iff.mp hs).1
  omega

variable [DecidableEq ι]

def upChannel (s : Polled (PollPoller ι) ι) (c : ι) : Res (Polled (PollPoller ι) ι) := do
  let ch := s.channel c
  if ch.index_ < 0 then
    let pfd : PollFd := ⟨ch.fd_, ch.events_.setWidth 16, 0#16⟩
    let s := { s with poller.pollffd_ := s.poller.pollffd_ ++ [pfd],
                      poller.channel_map := Function.update s.poller.channel_map pfd.fd (some c) }
    return s.setindex c (s.poller.pollffd_.length - 1)
  else
    let id := ch.index_
    let pfd ← s.poller.at_ id
    let pfd := { pfd with events := ch.events_.setWidth 16, revents := 0#16 }
    let pfd := if ch.isNoEvent then { pfd with fd := -1 - ch.fd_ } else pfd
    return { s with poller.pollffd_ := s.poller.pollffd_.set id.toNat pfd }

def removeChannel (s : Polled (PollPoller ι) ι) (c : ι) : Res (Polled (PollPoller ι) ι) := do
  let ch := s.channel c
  check (s.poller.channel_map ch.fd_ ≠ none)
  check (s.poller.channel_map ch.fd_ = some c)
  check (ch.isNoEvent = true)
  let id := ch.index_
  let pfd ← s.poller.at_ id
  check (pfd.fd = -ch.fd_ - 1)
  let s := { s with poller.channel_map := Function.update s.poller.channel_map id none }
  if id = s.poller.pollffd_.length - 1 then
    return { s with poller.pollffd_ := s.poller.pollffd_.dropLast }
  else
    let back ← s.poller.at_ (s.poller.pollffd_.length - 1)
    let s := { s with poller.pollffd_ := s.poller.pollffd_.set id.toNat back }
    -- the map makes a null pointer for a key that it has not
    match s.poller.channel_map back.owner with
    | none => .error .dangling
    | some d =>
      let s := s.setindex d id
      return { s with poller.pollffd_ := s.poller.pollffd_.dropLast }

/-- The loop of `FillActiceChannel`, over the rest of `pollffd_`. -/
def fill (s : Polled (PollPoller ι) ι) : List PollFd → ℕ → Res (Polled (PollPoller ι) ι × List ι)
  | [], _ => .ok (s, [])
  | _ :: _, 0 => .ok (s, [])
  | pfd :: pfds, numEvents + 1 =>
    if 0 < pfd.revents.toInt then
      match s.poller.channel_map pfd.fd with
      | none => .error .assertion
      | some temp => do
        check ((s.channel temp).fd_ = pfd.fd)
        let (s, active) ← fill (s.set_revents temp (pfd.revents.signExtend 32)) pfds numEvents
        return (s, temp :: active)
    else fill s pfds (numEvents + 1)

/-- `FillActiceChannel(numEvents, activechannel)`, after `::poll` has written the `revents`. -/
def FillActiceChannel (s : Polled (PollPoller ι) ι) (numEvents : ℕ) :
    Res (Polled (PollPoller ι) ι × List ι) :=
  fill s s.poller.pollffd_ numEvents

/-- What the `assert`s of `removeChannel` ask. -/
def removable (s : Polled (PollPoller ι) ι) (c : ι) : Prop :=
  s.poller.channel_map (s.channel c).fd_ = some c ∧ (s.channel c).isNoEvent = true ∧
    (s.poller.at_ (s.channel c).index_).map (·.fd) = .ok (-(s.channel c).fd_ - 1)

/-- The virtual functions, as this class overrides them. -/
def impl : Poller (PollPoller ι) ι := ⟨upChannel, removeChannel⟩

/-! ### The array and the map -/

/-- The array and the map hold the registered channels, each at its index, and a channel that
is not registered looks new to `upChannel`. -/
structure Bijective (s : Polled (PollPoller ι) ι) (w : Interest ι) : Prop where
  channel_map : ∀ x c, s.poller.channel_map x = some c ↔ (s.channel c).fd_ = x ∧ w.registered c = true
  index : ∀ c, w.registered c = true → ∃ pfd, s.poller.at_ (s.channel c).index_ = .ok pfd ∧
    (pfd.fd = (s.channel c).fd_ ∨ pfd.fd = -(s.channel c).fd_ - 1)
  distinct : ∀ c d, w.registered c = true → w.registered d = true →
    (s.channel c).index_ = (s.channel d).index_ → c = d
  covered : ∀ i < s.poller.pollffd_.length, ∃ c, w.registered c = true ∧ (s.channel c).index_ = i
  fresh : ∀ c, w.registered c = false → (s.channel c).index_ < 0

/-- `Bijective`, for channels of the descriptors `fd`. -/
structure Good (fd : ι → ℤ) (s : Polled (PollPoller ι) ι) (w : Interest ι) : Prop extends Bijective s w where
  fds : ∀ c, (s.channel c).fd_ = fd c

variable {fd : ι → ℤ} {s : Polled (PollPoller ι) ι} {w : Interest ι}

omit [DecidableEq ι] in
theorem Good.start (fd : ι → ℤ) : Good fd (Polled.start fd PollPoller.new) Interest.empty where
  channel_map x c := by simp [Polled.start, PollPoller.new, Interest.empty]
  index c h := by simp [Interest.empty] at h
  distinct c d h := by simp [Interest.empty] at h
  covered i h := by simp [Polled.start, PollPoller.new] at h
  fresh c _ := by simp [Polled.start, Channel.new]
  fds c := rfl

/-- What `upChannel` does with a channel that looks new. -/
theorem upChannel_new {ch : Change} {c : ι} (hx : (s.channel c).index_ < 0) :
    upChannel (s.change ch c) c = .ok
      { channel := Function.update s.channel c
          { ch.apply (s.channel c) with index_ := s.poller.pollffd_.length }
        poller.pollffd_ := s.poller.pollffd_ ++
          [⟨(s.channel c).fd_, (ch.mask (s.channel c).events_).setWidth 16, 0#16⟩]
        poller.channel_map := Function.update s.poller.channel_map (s.channel c).fd_ (some c) } := by
  unfold upChannel Polled.change
  simp [Change.apply_eq, hx, Polled.setindex]

/-- What `upChannel` does with the element a channel has. -/
theorem upChannel_old {ch : Change} {c : ι} {pfd : PollFd}
    (hat : s.poller.at_ (s.channel c).index_ = .ok pfd) :
    upChannel (s.change ch c) c = .ok
      { channel := Function.update s.channel c (ch.apply (s.channel c))
        poller.pollffd_ := s.poller.pollffd_.set (s.channel c).index_.toNat
          ⟨if ch.mask (s.channel c).events_ = 0#32 then -1 - (s.channel c).fd_ else pfd.fd,
            (ch.mask (s.channel c).events_).setWidth 16, 0#16⟩
        poller.channel_map := s.poller.channel_map } := by
  have hx := not_lt.mpr (at_lt hat).1
  unfold upChannel Polled.change
  by_cases hm : ch.mask (s.channel c).events_ = 0#32
  · simp [Change.apply_eq, hx, hat, hm, Channel.isNoEvent, Channel.kNoEvent]
  · simp [Change.apply_eq, hx, hat, hm, Channel.isNoEvent, Channel.kNoEvent]

theorem upChannel_error {ch : Change} {c : ι} {f : Fault} (hat : s.poller.at_ (s.channel c).index_ = .error f)
    (hx : 0 ≤ (s.channel c).index_) : upChannel (s.change ch c) c = .error f := by
  unfold upChannel Polled.change
  simp [Change.apply_eq, not_lt.mpr hx, hat]

/-- A new element at the end, for a channel that had none. -/
theorem Good.push (h : Good fd s w) (hfd : Function.Injective fd) {c : ι} {ch : Channel} {pfd : PollFd}
    (ev : ι → BitVec 32) (hch : ch.fd_ = fd c) (hi : ch.index_ = s.poller.pollffd_.length)
    (hpfd : pfd.fd = fd c) (hnew : w.registered c = false) :
    Good fd ⟨Function.update s.channel c ch,
      ⟨s.poller.pollffd_ ++ [pfd], Function.update s.poller.channel_map (fd c) (some c)⟩⟩
      ⟨Function.update w.registered c true, ev⟩ where
  channel_map x d := by
    by_cases hd : d = c
    · subst hd
      by_cases hx : x = fd d
      · simp [hx, hch]
      · have hne : (s.channel d).fd_ ≠ x := by rw [h.fds]; exact Ne.symm hx
        simp [Function.update_of_ne hx, hch, h.channel_map, hne, Ne.symm hx]
    · by_cases hx : x = fd c
      · have hne : (s.channel d).fd_ ≠ fd c := by rw [h.fds]; exact fun he => hd (hfd he)
        simp [hx, hne, Ne.symm hd, hd]
      · simp [Function.update_of_ne hx, hd, h.channel_map]
  index d hr := by
    by_cases hd : d = c
    · subst hd
      refine ⟨pfd, at_ok.mpr ?_, .inl ?_⟩
      · simp [hi]
      · simp [hpfd, hch]
    · simp only [Function.update_of_ne hd] at hr ⊢
      obtain ⟨q, hq, hqfd⟩ := h.index d hr
      have hlt := at_lt hq
      refine ⟨q, at_ok.mpr ⟨hlt.1, ?_⟩, hqfd⟩
      rw [List.getElem?_append_left (by omega)]
      exact (at_ok.mp hq).2
  distinct d e hd he hde := by
    have hlt : ∀ b, b ≠ c → Function.update w.registered c true b = true →
        (s.channel b).index_ < s.poller.pollffd_.length := by
      intro b hb hr
      rw [Function.update_of_ne hb] at hr
      obtain ⟨q, hq, -⟩ := h.index b hr
      exact (at_lt hq).2
    by_cases hdc : d = c
    · by_cases hec : e = c
      · rw [hdc, hec]
      · have := hlt e hec he
        simp [hdc, hec, hi] at hde
        omega
    · by_cases hec : e = c
      · have := hlt d hdc hd
        simp [hdc, hec, hi] at hde
        omega
      · simp only [Function.update_of_ne hdc, Function.update_of_ne hec] at hd he hde
        exact h.distinct d e hd he hde
  covered i hlt := by
    have hle : i < s.poller.pollffd_.length ∨ i = s.poller.pollffd_.length := by
      simp only [List.length_append, List.length_singleton] at hlt
      omega
    rcases hle with hlt | rfl
    · obtain ⟨d, hr, hd⟩ := h.covered i hlt
      have hdc : d ≠ c := by
        intro he
        rw [he, hnew] at hr
        cases hr
      exact ⟨d, by simpa [hdc] using hr, by simpa [hdc] using hd⟩
    · exact ⟨c, by simp, by simp [hi]⟩
  fresh d hr := by
    by_cases hd : d = c
    · simp [hd] at hr
    · simp only [Function.update_of_ne hd] at hr ⊢
      exact h.fresh d hr
  fds d := by
    by_cases hd : d = c
    · subst hd; simpa using hch
    · simpa [hd] using h.fds d

/-- Another mask in the element of a channel, which may negate its descriptor. -/
theorem Good.write (h : Good fd s w) {c : ι} {ch : Channel} {pfd : PollFd}
    (ev : ι → BitVec 32) (hch : ch.fd_ = fd c) (hi : ch.index_ = (s.channel c).index_)
    (hpfd : pfd.fd = fd c ∨ pfd.fd = -fd c - 1) (hreg : w.registered c = true) :
    Good fd ⟨Function.update s.channel c ch,
      ⟨s.poller.pollffd_.set (s.channel c).index_.toNat pfd, s.poller.channel_map⟩⟩
      ⟨Function.update w.registered c true, ev⟩ := by
  have hr : Function.update w.registered c true = w.registered := by
    rw [← hreg, Function.update_eq_self]
  have hfds : ∀ d, (Function.update s.channel c ch d).fd_ = fd d := by
    intro d
    by_cases hd : d = c
    · subst hd; simpa using hch
    · simpa [hd] using h.fds d
  have hix : ∀ d, (Function.update s.channel c ch d).index_ = (s.channel d).index_ := by
    intro d
    by_cases hd : d = c
    · subst hd; simpa using hi
    · simp [hd]
  rw [hr]
  exact
    { channel_map := fun x d => by rw [hfds, h.channel_map, h.fds]
      index := fun d hd => by
        rw [hix, hfds]
        obtain ⟨q, hq, hqfd⟩ := h.index d hd
        by_cases hdc : (s.channel c).index_ = (s.channel d).index_
        · have := h.distinct c d hreg hd hdc
          subst this
          refine ⟨pfd, at_ok.mpr ⟨(at_lt hq).1, ?_⟩, hpfd⟩
          rw [List.getElem?_set_self (by have := at_lt hq; omega)]
        · refine ⟨q, at_ok.mpr ⟨(at_lt hq).1, ?_⟩, h.fds d ▸ hqfd⟩
          obtain ⟨q', hq', -⟩ := h.index c hreg
          rw [List.getElem?_set_ne (by have := at_lt hq; have := at_lt hq'; omega)]
          exact (at_ok.mp hq).2
      distinct := fun d e hd he hde => h.distinct d e hd he (by rwa [hix, hix] at hde)
      covered := fun i hlt => by
        obtain ⟨d, hd, hid⟩ := h.covered i (by simpa using hlt)
        exact ⟨d, hd, by rw [hix, hid]⟩
      fresh := fun d hd => by rw [hix]; exact h.fresh d hd
      fds := hfds }

/-- A channel's change of mask keeps the bijection. -/
theorem Good.upevent (h : Good fd s w) (hfd : Function.Injective fd) (ch : Change) (c : ι) :
    ∃ t, upChannel (s.change ch c) c = .ok t ∧ Good fd t (w.step (.upevent ch c)) := by
  cases hr : w.registered c with
  | false =>
    refine ⟨_, upChannel_new (h.fresh c hr), ?_⟩
    rw [h.fds]
    exact h.push hfd _ (by rw [Change.apply_eq]; exact h.fds c) rfl rfl hr
  | true =>
    obtain ⟨pfd, hat, hpfd⟩ := h.index c hr
    refine ⟨_, upChannel_old hat, ?_⟩
    apply h.write _ (by rw [Change.apply_eq]; exact h.fds c) (by rw [Change.apply_eq]) _ hr
    rw [h.fds] at hpfd ⊢
    dsimp only
    split_ifs
    · exact .inr (by omega)
    · exact hpfd

/-- A removed channel does not look new. -/
theorem removeChannel_index {t : Polled (PollPoller ι) ι} {c : ι} (h : removeChannel s c = .ok t) :
    0 ≤ (t.channel c).index_ := by
  unfold removeChannel at h
  obtain ⟨_, -, h⟩ := bind_ok h
  obtain ⟨_, -, h⟩ := bind_ok h
  obtain ⟨_, -, h⟩ := bind_ok h
  obtain ⟨pfd, hat, h⟩ := bind_ok h
  obtain ⟨_, -, h⟩ := bind_ok h
  have hid := (at_lt hat).1
  dsimp only at h
  split_ifs at h with hlast
  · cases h
    exact hid
  · obtain ⟨back, -, h⟩ := bind_ok h
    split at h
    · cases h
    · rename_i d hd
      cases h
      unfold Polled.setindex
      by_cases hdc : c = d
      · subst hdc; simpa using hid
      · simpa [hdc] using hid

theorem Good.set_revents (h : Good fd s w) (c : ι) (r : BitVec 32) : Good fd (s.set_revents c r) w where
  channel_map x d := by rw [Polled.set_revents_channel]; exact h.channel_map x d
  index d := by rw [Polled.set_revents_channel]; exact h.index d
  distinct d e := by rw [Polled.set_revents_channel, Polled.set_revents_channel]; exact h.distinct d e
  covered i hi := by
    obtain ⟨d, hd, hid⟩ := h.covered i hi
    exact ⟨d, hd, by rw [Polled.set_revents_channel]; exact hid⟩
  fresh d := by rw [Polled.set_revents_channel]; exact h.fresh d
  fds d := by rw [Polled.set_revents_channel]; exact h.fds d

/-- The elements that `::poll` reports events for pass the `assert`s of the loop. -/
theorem Good.fill : ∀ {pfds : List PollFd} {n : ℕ} {s : Polled (PollPoller ι) ι},
    Good fd s w → (∀ pfd ∈ pfds, 0 < pfd.revents.toInt → ∃ c, w.registered c = true ∧ fd c = pfd.fd) →
    ∃ r, fill s pfds n = .ok r
  | [], _, s, _, _ => ⟨(s, []), rfl⟩
  | _ :: _, 0, s, _, _ => ⟨(s, []), rfl⟩
  | pfd :: pfds, n + 1, s, h, hp => by
    have hp' := fun q hq => hp q (List.mem_cons_of_mem _ hq)
    unfold PollPoller.fill
    split_ifs with hr
    · obtain ⟨c, hc, hcfd⟩ := hp pfd (List.mem_cons_self ..) hr
      have hmap := (h.channel_map pfd.fd c).mpr ⟨by rw [h.fds, hcfd], hc⟩
      obtain ⟨⟨t, active⟩, ht⟩ := Good.fill (n := n) (h.set_revents c (pfd.revents.signExtend 32)) hp'
      rw [hmap]
      dsimp only
      rw [check_pos (by rw [h.fds, hcfd]), ok_bind, ht]
      exact ⟨_, rfl⟩
    · exact Good.fill h hp'

/-- `::poll` reports no events for a negated descriptor. -/
theorem Good.fillActice (h : Good fd s w) (hnat : ∀ c, 0 ≤ fd c) (n : ℕ)
    (hp : ∀ pfd ∈ s.poller.pollffd_, 0 < pfd.revents.toInt → 0 ≤ pfd.fd) :
    ∃ r, FillActiceChannel s n = .ok r := by
  apply h.fill
  intro pfd hmem hr
  obtain ⟨i, hi, he⟩ := List.mem_iff_getElem.mp hmem
  obtain ⟨c, hc, hid⟩ := h.covered i hi
  obtain ⟨q, hq, hqfd⟩ := h.index c hc
  have hqp : q = pfd := by
    have hget := (at_ok.mp hq).2
    rw [hid, Int.toNat_natCast, List.getElem?_eq_getElem hi, Option.some.injEq] at hget
    rw [← hget, he]
  rw [h.fds, hqp] at hqfd
  have := hp pfd hmem hr
  have := hnat c
  exact ⟨c, hc, by omega⟩

end PollPoller

/-! ### Runs -/

/-- Any channels of one loop with their `PollPoller`, and what their calls so far registered;
a channel is removed where the `assert`s hold. -/
def pollPoller (ι : Type) [DecidableEq ι] :
    System (Polled (PollPoller ι) ι × Interest ι) (PollerCall ι) Fault where
  guard s
    | .upevent _ _ => True
    | .remove c => PollPoller.removable s.1 c
  step s e := do
    let t ← PollPoller.impl.call s.1 e
    return (t, s.2.step e)

namespace PollPoller

variable {ι : Type} [DecidableEq ι]

/-- The state before the first call. -/
def start (fd : ι → ℤ) : Polled (PollPoller ι) ι × Interest ι := (.start fd PollPoller.new, .empty)

def Keeps (s : Polled (PollPoller ι) ι × Interest ι) (e : PollerCall ι) : Prop :=
  ∃ t, (pollPoller ι).step s e = .ok t ∧ Bijective t.1 t.2

def isRemove : PollerCall ι → Bool
  | .upevent _ _ => false
  | .remove _ => true

theorem Good.step {fd : ι → ℤ} (hfd : Function.Injective fd) {s : Polled (PollPoller ι) ι × Interest ι}
    (h : Good fd s.1 s.2) {e : PollerCall ι} (he : isRemove e = false) :
    ∃ t, (pollPoller ι).step s e = .ok t ∧ Good fd t.1 t.2 := by
  cases e with
  | remove c => cases he
  | upevent ch c =>
    obtain ⟨t, ht, hg⟩ := h.upevent hfd ch c
    refine ⟨(t, s.2.step (.upevent ch c)), ?_, hg⟩
    show (impl.call s.1 (.upevent ch c) >>= fun t => pure (t, _)) = _
    rw [show impl.call s.1 (.upevent ch c) = .ok t from ht]
    rfl

/-- A call keeps the bijection exactly if it is no removal. -/
theorem Good.keeps_iff {fd : ι → ℤ} (hfd : Function.Injective fd) {s : Polled (PollPoller ι) ι × Interest ι}
    (h : Good fd s.1 s.2) {e : PollerCall ι} : Keeps s e ↔ isRemove e = false := by
  cases e with
  | upevent ch c =>
    obtain ⟨t, ht, hg⟩ := h.step hfd (e := .upevent ch c) rfl
    exact iff_of_true ⟨t, ht, hg.toBijective⟩ rfl
  | remove c =>
    apply iff_of_false
    · rintro ⟨t, ht, hb⟩
      obtain ⟨u, hu, ht⟩ := bind_ok ht
      cases ht
      have h0 : 0 ≤ (u.channel c).index_ := removeChannel_index hu
      have hneg : (u.channel c).index_ < 0 := hb.fresh c (by simp [Interest.step])
      omega
    · intro he
      cases he

end PollPoller

/-- The array and the map of a `PollPoller` stay in bijection with the registered channels
exactly in the runs that remove none. -/
theorem pollPoller_bijective_iff {ι : Type} [DecidableEq ι] (fd : ι → ℤ) (hfd : Function.Injective fd)
    (es : List (PollerCall ι)) :
    (pollPoller ι).Always PollPoller.Keeps (PollPoller.start fd) es ↔
      ∀ e ∈ es, PollPoller.isRemove e = false :=
  System.always_iff_forall
    (I := fun s : Polled (PollPoller ι) ι × Interest ι => PollPoller.Good fd s.1 s.2) (fun h he => h.step hfd he)
    (fun h => h.keeps_iff hfd) (PollPoller.Good.start fd)

theorem pollPoller_bijective_iff_two :
    (pollPoller Bool).Always PollPoller.Keeps (PollPoller.start fun c => if c then 7 else 5)
      [.upevent .enread false, .upevent .enwrite true, .upevent .disallevent false, .upevent .enread true] :=
  (pollPoller_bijective_iff _ (fun a b => by revert a b; decide) _).mpr (by decide)

/-- One channel that is enabled, disabled and removed, each `assert` of the removal holding:
its index is still 0, and the map still has its descriptor. -/
theorem pollPoller_not_bijective :
    let es : List (PollerCall Unit) := [.upevent .enread (), .upevent .disallevent (), .remove ()]
    (pollPoller Unit).Always (pollPoller Unit).guard (PollPoller.start fun _ => 5) es ∧
      ¬ (pollPoller Unit).Always PollPoller.Keeps (PollPoller.start fun _ => 5) es := by
  refine ⟨?_, ?_⟩
  · refine ⟨trivial, fun t ht => ?_⟩
    cases ht
    refine ⟨trivial, fun t ht => ?_⟩
    cases ht
    exact ⟨⟨rfl, rfl, rfl⟩, fun _ _ => trivial⟩
  · intro h
    obtain ⟨⟨t, ht, hb⟩, -⟩ := (h.2 _ rfl).2 _ rfl
    cases ht
    exact absurd (hb.fresh () rfl) (by decide)

end MuduoSe
