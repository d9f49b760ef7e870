/-
# EpollPoller: the poller over an epoll instance

`net/EpollPoller.h` and `net/EpollPoller.cc`. `channels_` is the `std::map<int, Channel*>` of
the source, of which only `find`, `[]` and `erase` are used; `events_` counts by its size. The
poller's `epollfd_` is an instance of the library's `Epoll`.

`index_` tells where a channel is: `knew` in neither, `kin` in the map and the interest list,
`kdel` in the map only. `Mirrors` is that for all channels, with the masks and pointers of the
list; every call keeps it, no `assert` fails and no `epoll_ctl` does.

Key definitions: `EpollPoller.upChannel`, `EpollPoller.removeChannel`,
`EpollPoller.FillActiceChannel`, `EpollPoller.Mirrors`, `epollPoller`.
Key theorems: `EpollPoller.Good.put`, `EpollPoller.upChannel_spec`, `epollPoller_mirrors`.
-/
import MuduoSe.Lib.Epoll
import MuduoSe.Net.Poller

namespace MuduoSe

structure EpollPoller (ι : Type) where
  epollfd_ : Epoll ι
  /-- `events_.size()`. -/
  events_ : ℕ
  channels_ : ℤ → Option ι

namespace EpollPoller

variable {ι : Type}

def knew : ℤ := -1
def kin : ℤ := 1
def kdel : ℤ := 2
def kinitepollsize : ℕ := 16

/-- The constructor. -/
def new : EpollPoller ι := ⟨Epoll.empty, kinitepollsize, fun _ => none⟩

variable [DecidableEq ι]

def update (s : Polled (EpollPoller ι) ι) (c : ι) (mode : EpollOp) : Polled (EpollPoller ι) ι :=
  { s with poller.epollfd_ :=
    s.poller.epollfd_.ctl mode (s.channel c).fd_ ⟨(s.channel c).events_, c⟩ }

def upChannel (s : Polled (EpollPoller ι) ι) (c : ι) : Res (Polled (EpollPoller ι) ι) := do
  let fd := (s.channel c).fd_
  let id := (s.channel c).index_
  if id = knew ∨ id = kdel then
    let s ←
      if id = knew then
        pure { s with poller.channels_ := Function.update s.poller.channels_ fd (some c) }
      else do
        check (s.poller.channels_ fd ≠ none)
        check (s.poller.channels_ fd = some c)
        pure s
    return (update s c .EPOLL_CTL_ADD).setindex c kin
  else
    check (s.poller.channels_ fd ≠ none)
    check (s.poller.channels_ fd = some c)
    check (id = kin)
    if (s.channel c).isNoEvent then return update (s.setindex c kdel) c .EPOLL_CTL_DEL
    else return update s c .EPOLL_CTL_MOD

def removeChannel (s : Polled (EpollPoller ι) ι) (c : ι) : Res (Polled (EpollPoller ι) ι) := do
  let fd := (s.channel c).fd_
  let id := (s.channel c).index_
  check (s.poller.channels_ fd ≠ none)
  check (s.poller.channels_ fd = some c)
  check ((s.channel c).isNoEvent = true)
  check (id = kdel ∨ id = kin)
  let s := { s with poller.channels_ := Function.update s.poller.channels_ fd none }
  let s := if id = kin then update s c .EPOLL_CTL_DEL else s
  return s.setindex c knew

/-- The loop of `FillActiceChannel`: the channels with their `revents_`, and those it appends. -/
def fill (s : Polled (EpollPoller ι) ι) : List (EpollEvent ι) → Res (Polled (EpollPoller ι) ι × List ι)
  | [] => .ok (s, [])
  | ev :: evs => do
    let channel := ev.ptr
    check (s.poller.channels_ (s.channel channel).fd_ ≠ none)
    check (s.poller.channels_ (s.channel channel).fd_ = some channel)
    let (s, active) ← fill (s.set_revents channel ev.events) evs
    return (s, channel :: active)

/-- `FillActiceChannel(numEvents, activechannel)`, where `evs` are the first `numEvents`
elements of `events_`. -/
def FillActiceChannel (s : Polled (EpollPoller ι) ι) (evs : List (EpollEvent ι)) :
    Res (Polled (EpollPoller ι) ι × List ι) := do
  check (evs.length ≤ s.poller.events_)
  fill s evs

/-- `poll(timeout, activechannellist)`, where `epoll_wait` delivers `evs`. -/
def poll (s : Polled (EpollPoller ι) ι) (evs : List (EpollEvent ι)) :
    Res (Polled (EpollPoller ι) ι × List ι) :=
  if 0 < evs.length then do
    let (s, active) ← FillActiceChannel s evs
    return (if evs.length = s.poller.events_ then { s with poller.events_ := s.poller.events_ * 2 } else s, active)
  else .ok (s, [])

/-- What the `assert`s of `removeChannel` ask. -/
def removable (s : Polled (EpollPoller ι) ι) (c : ι) : Prop :=
  s.poller.channels_ (s.channel c).fd_ = some c ∧ (s.channel c).isNoEvent = true ∧
    ((s.channel c).index_ = kdel ∨ (s.channel c).index_ = kin)

instance (s : Polled (EpollPoller ι) ι) (c : ι) : Decidable (removable s c) := by
  unfold removable
  infer_instance

/-! ### The two sides mirror each other -/

/-- The map and the interest list are what the indices of the channels say. -/
structure Mirrors (s : Polled (EpollPoller ι) ι) : Prop where
  channels : ∀ fd c, s.poller.channels_ fd = some c ↔
    (s.channel c).fd_ = fd ∧ ((s.channel c).index_ = kin ∨ (s.channel c).index_ = kdel)
  interest : ∀ fd ev, s.poller.epollfd_.interest fd = some ev ↔
    (s.channel ev.ptr).fd_ = fd ∧ (s.channel ev.ptr).index_ = kin ∧ ev.events = (s.channel ev.ptr).events_
  results : ∀ r ∈ s.poller.epollfd_.results, r = true

/-- `Mirrors`, for channels of the descriptors `fd`. -/
structure Good (fd : ι → ℤ) (s : Polled (EpollPoller ι) ι) : Prop extends Mirrors s where
  fds : ∀ c, (s.channel c).fd_ = fd c
  index : ∀ c, (s.channel c).index_ = knew ∨ (s.channel c).index_ = kin ∨ (s.channel c).index_ = kdel

omit [DecidableEq ι] in
theorem Good.start (fd : ι → ℤ) : Good fd (Polled.start fd EpollPoller.new) where
  channels fd c := by simp [Polled.start, Channel.new, EpollPoller.new, kin, kdel]
  interest fd ev := by simp [Polled.start, Channel.new, EpollPoller.new, Epoll.empty, kin]
  results r h := by simp [Polled.start, EpollPoller.new, Epoll.empty] at h
  fds _ := rfl
  index _ := .inl rfl

/-- `c` becomes `ch`, and the map and the interest list what its index says; the calls of
`epoll_ctl` so far are `rs`. -/
def put (s : Polled (EpollPoller ι) ι) (c : ι) (ch : Channel) (rs : List Bool) : Polled (EpollPoller ι) ι where
  channel := Function.update s.channel c ch
  poller.epollfd_.interest := Function.update s.poller.epollfd_.interest (s.channel c).fd_
    (if ch.index_ = kin then some ⟨ch.events_, c⟩ else none)
  poller.epollfd_.results := rs
  poller.events_ := s.poller.events_
  poller.channels_ := Function.update s.poller.channels_ (s.channel c).fd_
    (if ch.index_ = knew then none else some c)

variable {fd : ι → ℤ} {s : Polled (EpollPoller ι) ι}

theorem Good.put (h : Good fd s) (hfd : Function.Injective fd) {c : ι} {ch : Channel} {rs : List Bool}
    (hch : ch.fd_ = fd c) (hix : ch.index_ = knew ∨ ch.index_ = kin ∨ ch.index_ = kdel)
    (hrs : ∀ r ∈ rs, r = true) : Good fd (put s c ch rs) where
  channels x d := by
    unfold EpollPoller.put
    rw [h.fds c]
    by_cases hd : d = c
    · subst hd
      by_cases hx : x = fd d
      · subst hx
        rcases hix with hi | hi | hi <;> simp [hi, hch, knew, kin, kdel]
      · have hne : (s.channel d).fd_ ≠ x := by rw [h.fds]; exact Ne.symm hx
        have := h.channels x d
        simp [Function.update_of_ne hx, hch, this, hne, Ne.symm hx]
    · by_cases hx : x = fd c
      · subst hx
        have hne : (s.channel d).fd_ ≠ fd c := by rw [h.fds]; exact fun he => hd (hfd he)
        rcases hix with hi | hi | hi <;> simp [hi, knew, kin, kdel, Function.update_of_ne hd, hne, Ne.symm hd]
      · simp [Function.update_of_ne hx, Function.update_of_ne hd, h.channels x d]
  interest x ev := by
    unfold EpollPoller.put
    rw [h.fds c]
    by_cases hd : ev.ptr = c
    · obtain ⟨m, d⟩ := ev
      subst hd
      by_cases hx : x = fd d
      · subst hx
        rcases hix with hi | hi | hi <;> simp [hi, hch, knew, kin, kdel, eq_comm]
      · have hne : (s.channel d).fd_ ≠ x := by rw [h.fds]; exact Ne.symm hx
        have := h.interest x ⟨m, d⟩
        simp [Function.update_of_ne hx, hch, this, hne, Ne.symm hx]
    · by_cases hx : x = fd c
      · subst hx
        have hne : (s.channel ev.ptr).fd_ ≠ fd c := by rw [h.fds]; exact fun he => hd (hfd he)
        have hev : ∀ m, (⟨m, c⟩ : EpollEvent ι) ≠ ev := fun m he => hd (by rw [← he])
        rcases hix with hi | hi | hi <;> simp [hi, knew, kin, kdel, Function.update_of_ne hd, hne, hev]
      · simp [Function.update_of_ne hx, Function.update_of_ne hd, h.interest x ev]
  results := hrs
  fds d := by
    unfold EpollPoller.put
    by_cases hd : d = c
    · subst hd; simpa using hch
    · simpa [Function.update_of_ne hd] using h.fds d
  index d := by
    unfold EpollPoller.put
    by_cases hd : d = c
    · subst hd; simpa using hix
    · simpa [Function.update_of_ne hd] using h.index d

/-- The index `upChannel` leaves a channel with, which had the index `id` and now has this mask. -/
def indexUp (id : ℤ) (events : BitVec 32) : ℤ := if id = kin ∧ events = 0#32 then kdel else kin

theorem indexUp_eq (id : ℤ) (events : BitVec 32) : indexUp id events = kin ∨ indexUp id events = kdel := by
  unfold indexUp
  split
  · exact .inr rfl
  · exact .inl rfl

omit [DecidableEq ι] in
theorem Good.interest_self (h : Good fd s) (hfd : Function.Injective fd) (c : ι) :
    s.poller.epollfd_.interest (s.channel c).fd_ =
      if (s.channel c).index_ = kin then some ⟨(s.channel c).events_, c⟩ else none := by
  split_ifs with hi
  · exact (h.interest _ _).mpr ⟨rfl, hi, rfl⟩
  · apply Option.eq_none_iff_forall_ne_some.mpr
    intro ev hev
    obtain ⟨hx, hi', -⟩ := (h.interest _ _).mp hev
    rw [h.fds, h.fds] at hx
    exact hi (hfd hx ▸ hi')

omit [DecidableEq ι] in
theorem Good.channels_self (h : Good fd s) (hfd : Function.Injective fd) (c : ι) :
    s.poller.channels_ (s.channel c).fd_ = if (s.channel c).index_ = knew then none else some c := by
  split_ifs with hi
  · apply Option.eq_none_iff_forall_ne_some.mpr
    intro d hd
    obtain ⟨hx, hi'⟩ := (h.channels _ _).mp hd
    rw [h.fds, h.fds] at hx
    rw [hfd hx, hi] at hi'
    revert hi'
    decide
  · exact (h.channels _ _).mpr ⟨rfl, (h.index c).resolve_left hi⟩

/-- What `upChannel` does after a change of the mask. -/
theorem upChannel_spec (h : Good fd s) (hfd : Function.Injective fd) (ch : Change) (c : ι) :
    upChannel (s.change ch c) c = .ok (put s c
      { ch.apply (s.channel c) with index_ := indexUp (s.channel c).index_ (ch.apply (s.channel c)).events_ }
      (s.poller.epollfd_.results ++ [true])) := by
  have hi := h.interest_self hfd c
  have hc := h.channels_self hfd c
  unfold upChannel Polled.change update put Polled.setindex
  rw [Change.apply_eq]
  rcases h.index c with hx | hx | hx
  · simp only [hx, knew, kin, reduceCtorEq, if_false, Int.reduceNeg] at hi
    simp [hx, knew, kin, kdel, indexUp, Epoll.ctl_add hi]
  · simp only [hx, kin, if_true] at hi
    simp only [hx, knew, kin, Int.reduceNeg, Int.reduceEq, if_false] at hc
    by_cases hm : ch.mask (s.channel c).events_ = 0#32
    · simp [hx, hc, knew, kin, kdel, indexUp, Channel.isNoEvent, Channel.kNoEvent, hm, Epoll.ctl_del hi]
    · simp [hx, hc, knew, kin, kdel, indexUp, Channel.isNoEvent, Channel.kNoEvent, hm, Epoll.ctl_mod hi]
  · simp only [hx, kdel, kin, Int.reduceEq, if_false] at hi
    simp only [hx, knew, kdel, Int.reduceNeg, Int.reduceEq, if_false] at hc
    simp [hx, hc, knew, kin, kdel, indexUp, Epoll.ctl_add hi]

/-- What `removeChannel` does where its `assert`s hold. -/
theorem removeChannel_spec (h : Good fd s) (hfd : Function.Injective fd) {c : ι} (hr : removable s c) :
    ∃ rs, (∀ r ∈ rs, r = true) ∧
      removeChannel s c = .ok (put s c { s.channel c with index_ := knew } rs) := by
  obtain ⟨hc, hn, hx⟩ := hr
  have hi := h.interest_self hfd c
  unfold removeChannel update put Polled.setindex
  rcases hx with hx | hx
  · refine ⟨s.poller.epollfd_.results, h.results, ?_⟩
    simp only [hx, kdel, kin, Int.reduceEq, if_false] at hi
    have hsame := Function.update_eq_self (s.channel c).fd_ s.poller.epollfd_.interest
    rw [hi] at hsame
    simp [hx, hc, hn, hsame, knew, kin, kdel]
  · refine ⟨s.poller.epollfd_.results ++ [true], ?_, ?_⟩
    · intro r hr
      rcases List.mem_append.mp hr with hr | hr
      · exact h.results r hr
      · exact List.mem_singleton.mp hr
    · simp only [hx, kin, if_true] at hi
      simp [hx, hc, hn, knew, kin, kdel, Epoll.ctl_del hi]

theorem Good.upevent (h : Good fd s) (hfd : Function.Injective fd) (ch : Change) (c : ι) :
    ∃ t, upChannel (s.change ch c) c = .ok t ∧ Good fd t := by
  refine ⟨_, upChannel_spec h hfd ch c, h.put hfd ?_ (.inr (indexUp_eq _ _)) ?_⟩
  · rw [Change.apply_eq]
    exact h.fds c
  · intro r hr
    rcases List.mem_append.mp hr with hr | hr
    · exact h.results r hr
    · exact List.mem_singleton.mp hr

theorem Good.remove (h : Good fd s) (hfd : Function.Injective fd) {c : ι} (hr : removable s c) :
    ∃ t, removeChannel s c = .ok t ∧ Good fd t := by
  obtain ⟨rs, hrs, ht⟩ := removeChannel_spec h hfd hr
  exact ⟨_, ht, h.put hfd (h.fds c) (.inl rfl) hrs⟩

theorem Good.set_revents (h : Good fd s) (c : ι) (r : BitVec 32) : Good fd (s.set_revents c r) where
  channels x d := by rw [Polled.set_revents_channel]; exact h.channels x d
  interest x ev := by rw [Polled.set_revents_channel]; exact h.interest x ev
  results := h.results
  fds d := by rw [Polled.set_revents_channel]; exact h.fds d
  index d := by rw [Polled.set_revents_channel]; exact h.index d

/-- The pointers of the interest list pass the `assert`s of the loop. -/
theorem Good.fill : ∀ {evs : List (EpollEvent ι)} {s : Polled (EpollPoller ι) ι}, Good fd s →
    (∀ ev ∈ evs, (s.channel ev.ptr).index_ = kin) →
    ∃ t, fill s evs = .ok (t, evs.map (·.ptr)) ∧ Good fd t ∧ t.poller = s.poller
  | [], s, h, _ => ⟨s, rfl, h, rfl⟩
  | ev :: evs, s, h, hevs => by
    have hc := (h.channels _ ev.ptr).mpr ⟨rfl, .inl (hevs ev (List.mem_cons_self ..))⟩
    have hrest : ∀ e ∈ evs, ((s.set_revents ev.ptr ev.events).channel e.ptr).index_ = kin := by
      intro e he
      rw [Polled.set_revents_channel]
      exact hevs e (List.mem_cons_of_mem _ he)
    obtain ⟨t, ht, hg, hp⟩ := Good.fill (h.set_revents ev.ptr ev.events) hrest
    exact ⟨t, by simp [EpollPoller.fill, hc, ht], hg, hp⟩

/-- What `epoll_wait` returns passes `FillActiceChannel`. -/
theorem Good.fillActice (h : Good fd s) {ready : List (ℤ × BitVec 32)}
    (hr : ready.length ≤ s.poller.events_) : ∃ t, FillActiceChannel s (s.poller.epollfd_.wait ready) =
      .ok (t, (s.poller.epollfd_.wait ready).map (·.ptr)) ∧ Good fd t ∧ t.poller = s.poller := by
  have hkin : ∀ ev ∈ s.poller.epollfd_.wait ready, (s.channel ev.ptr).index_ = kin := by
    intro ev hev
    obtain ⟨x, old, hold, he⟩ := Epoll.mem_wait hev
    rw [← he]
    exact ((h.interest x old).mp hold).2.1
  obtain ⟨t, ht, hg, hp⟩ := h.fill hkin
  refine ⟨t, ?_, hg, hp⟩
  unfold FillActiceChannel
  rw [check_pos ((Epoll.wait_length_le _ _).trans hr)]
  exact ht

end EpollPoller

/-! ### Runs -/

/-- An event of a loop's poller: a call of a channel, or a return of `epoll_wait` with the
descriptors `ready`. -/
inductive EpollCall (ι : Type)
  | call (e : PollerCall ι)
  | poll (ready : List (ℤ × BitVec 32))
  deriving DecidableEq, Repr

namespace EpollPoller

variable {ι : Type} [DecidableEq ι]

/-- The virtual functions, as this class overrides them. -/
def impl : Poller (EpollPoller ι) ι := ⟨upChannel, removeChannel⟩

def step (s : Polled (EpollPoller ι) ι) : EpollCall ι → Res (Polled (EpollPoller ι) ι)
  | .call e => impl.call s e
  | .poll ready => do
    let (s, _) ← poll s (s.poller.epollfd_.wait ready)
    return s

/-- A channel is removed where the `assert`s hold; `epoll_wait` fills at most `events_`. -/
def possible (s : Polled (EpollPoller ι) ι) : EpollCall ι → Prop
  | .call (.upevent _ _) => True
  | .call (.remove c) => removable s c
  | .poll ready => ready.length ≤ s.poller.events_

instance (s : Polled (EpollPoller ι) ι) : (e : EpollCall ι) → Decidable (possible s e)
  | .call (.upevent _ _) => inferInstanceAs (Decidable True)
  | .call (.remove c) => inferInstanceAs (Decidable (removable s c))
  | .poll ready => inferInstanceAs (Decidable (ready.length ≤ s.poller.events_))

end EpollPoller

/-- Any channels of one loop with their `EpollPoller`. -/
def epollPoller (ι : Type) [DecidableEq ι] : System (Polled (EpollPoller ι) ι) (EpollCall ι) Fault where
  guard := EpollPoller.possible
  step := EpollPoller.step

instance {ι : Type} [DecidableEq ι] (s : Polled (EpollPoller ι) ι) (e : EpollCall ι) :
    Decidable ((epollPoller ι).guard s e) :=
  inferInstanceAs (Decidable (EpollPoller.possible s e))

namespace EpollPoller

variable {ι : Type} [DecidableEq ι] {fd : ι → ℤ} {s : Polled (EpollPoller ι) ι}

/-- Nothing that is possible fails, and it keeps the invariant. -/
theorem Good.step (h : Good fd s) (hfd : Function.Injective fd) {e : EpollCall ι}
    (he : (epollPoller ι).guard s e) : ∃ t, (epollPoller ι).step s e = .ok t ∧ Good fd t := by
  match e, he with
  | .call (.upevent ch c), _ => exact h.upevent hfd ch c
  | .call (.remove c), he => exact h.remove hfd he
  | .poll ready, he =>
    obtain ⟨t, ht, hg, hp⟩ := h.fillActice he
    unfold epollPoller EpollPoller.step poll
    dsimp only
    split_ifs with hl
    · rw [ht]
      dsimp only [ok_bind, res_pure]
      split_ifs
      · exact ⟨_, rfl, { hg with }⟩
      · exact ⟨t, rfl, hg⟩
    · exact ⟨s, rfl, h⟩

/-- The loop of `FillActiceChannel` writes the `revents_` of channels, and nothing else. -/
theorem fill_channel (c : ι) : ∀ {evs : List (EpollEvent ι)} {s t : Polled (EpollPoller ι) ι} {active : List ι},
    fill s evs = .ok (t, active) → ∃ r, t.channel c = { s.channel c with revents_ := r }
  | [], s, t, active, h => by
    rw [fill, Except.ok.injEq, Prod.mk.injEq] at h
    exact ⟨_, by rw [← h.1]⟩
  | ev :: evs, s, t, active, h => by
    rw [fill] at h
    obtain ⟨-, -, h⟩ := bind_ok h
    obtain ⟨-, -, h⟩ := bind_ok h
    obtain ⟨⟨u, act⟩, hu, h⟩ := bind_ok h
    dsimp only at h
    rw [res_pure, Except.ok.injEq, Prod.mk.injEq] at h
    obtain ⟨rfl, -⟩ := h
    obtain ⟨r, hr⟩ := fill_channel c hu
    exact ⟨r, by rw [hr, Polled.set_revents_channel]⟩

/-- A step that is not a call of the channel `c` leaves its mask and its index. -/
theorem Good.step_channel (h : Good fd s) (hfd : Function.Injective fd) {e : EpollCall ι}
    (he : (epollPoller ι).guard s e) {c : ι} (hc : ∀ ch, e ≠ .call (.upevent ch c))
    (hc' : e ≠ .call (.remove c)) {t : Polled (EpollPoller ι) ι} (ht : (epollPoller ι).step s e = .ok t) :
    ∃ r, t.channel c = { s.channel c with revents_ := r } := by
  match e, he, ht with
  | .call (.upevent ch d), _, ht =>
    have hne : c ≠ d := fun hd => hc ch (by rw [hd])
    have ht : upChannel (s.change ch d) d = .ok t := ht
    rw [upChannel_spec h hfd, Except.ok.injEq] at ht
    exact ⟨_, by rw [← ht]; exact Function.update_of_ne hne ..⟩
  | .call (.remove d), he, ht =>
    have hne : c ≠ d := fun hd => hc' (by rw [hd])
    obtain ⟨rs, -, hr⟩ := removeChannel_spec h hfd he
    have ht : removeChannel s d = .ok t := ht
    rw [hr, Except.ok.injEq] at ht
    exact ⟨_, by rw [← ht]; exact Function.update_of_ne hne ..⟩
  | .poll ready, _, ht =>
    obtain ⟨⟨u, active⟩, hu, ht⟩ := bind_ok ht
    dsimp only at ht
    rw [res_pure, Except.ok.injEq] at ht
    subst ht
    unfold poll at hu
    split_ifs at hu with hl
    · obtain ⟨⟨v, act⟩, hv, hu⟩ := bind_ok hu
      dsimp only at hu
      rw [res_pure, Except.ok.injEq, Prod.mk.injEq] at hu
      obtain ⟨rfl, -⟩ := hu
      obtain ⟨-, -, hv⟩ := bind_ok hv
      obtain ⟨r, hr⟩ := fill_channel c hv
      exact ⟨r, by rw [← hr]; split_ifs <;> rfl⟩
    · rw [Except.ok.injEq, Prod.mk.injEq] at hu
      exact ⟨_, by rw [← hu.1]⟩

theorem Good.run {es : List (EpollCall ι)} (hfd : Function.Injective fd)
    (h : (epollPoller ι).Run (.start fd EpollPoller.new) es s) : Good fd s := by
  apply h.invariant (I := Good fd) _ (Good.start fd)
  intro s t e hs hg ht
  obtain ⟨u, hu, hgood⟩ := hs.step hfd hg
  rw [hu, Except.ok.injEq] at ht
  exact ht ▸ hgood

end EpollPoller

/-- The poller's own state mirrors the interest list: in every state of every run no call
that is possible fails an `assert`, every `epoll_ctl` so far succeeded, the map and the list
hold what the indices and the masks of the channels say, and what `epoll_wait` can return
passes `FillActiceChannel`. -/
theorem epollPoller_mirrors {ι : Type} [DecidableEq ι] (fd : ι → ℤ) (hfd : Function.Injective fd)
    {es : List (EpollCall ι)} {s : Polled (EpollPoller ι) ι}
    (h : (epollPoller ι).Run (.start fd EpollPoller.new) es s) :
    EpollPoller.Mirrors s ∧
      (∀ e, (epollPoller ι).guard s e → ∃ t, (epollPoller ι).step s e = .ok t) ∧
      ∀ ready : List (ℤ × BitVec 32), ready.length ≤ s.poller.events_ →
        ∃ t active, EpollPoller.FillActiceChannel s (s.poller.epollfd_.wait ready) = .ok (t, active) := by
  have hgood := EpollPoller.Good.run hfd h
  refine ⟨hgood.toMirrors, ?_, ?_⟩
  · intro e he
    obtain ⟨t, ht, -⟩ := hgood.step hfd he
    exact ⟨t, ht⟩
  · intro ready hr
    obtain ⟨t, ht, -⟩ := hgood.fillActice hr
    exact ⟨t, _, ht⟩

/-- Two channels: one is disabled and enabled again, the other disabled and removed. -/
theorem epollPoller_mirrors_reused :
    ∃ s, (epollPoller Bool).Run (.start (fun c => if c then 7 else 5) EpollPoller.new)
        [.call (.upevent .enread false), .call (.upevent .enwrite true), .call (.upevent .disallevent false),
         .poll [(7, 4#32)], .call (.upevent .diswrite true), .call (.remove true),
         .call (.upevent .enread false)] s ∧
      s.poller.epollfd_.interest 5 = some ⟨3#32, false⟩ ∧ s.poller.channels_ 7 = none ∧
      EpollPoller.Mirrors s := by
  have h : ((epollPoller Bool).exec (.start (fun c => if c then 7 else 5) EpollPoller.new)
      [.call (.upevent .enread false), .call (.upevent .enwrite true), .call (.upevent .disallevent false),
        .poll [(7, 4#32)], .call (.upevent .diswrite true), .call (.remove true),
        .call (.upevent .enread false)]).map (fun s => (s.poller.epollfd_.interest 5, s.poller.channels_ 7)) =
      some (some ⟨3#32, false⟩, none) := by decide +kernel
  obtain ⟨s, hs, hv⟩ := (System.exec_map_iff _).mp h
  rw [Prod.mk.injEq] at hv
  exact ⟨s, hs, hv.1, hv.2, (epollPoller_mirrors _ (fun a b => by revert a b; decide) hs).1⟩

end MuduoSe
