/-
# Channels that watch nothing

`EpollPoller::upChannel` takes a channel that is registered and watches nothing any more out of the
interest list. It looks at the index first: a channel that is not registered it adds, also with an
empty mask, and such a descriptor still reports its errors.

* `quiet_iff_watches`: in a run no registered channel watches nothing if and only if no call leaves
  a channel without events that is not registered.
* `disabled_twice_registered`: `disallevent` and then `diswrite`, as `handledel` and then
  `handlewrite` call them, register it again.

Channels may share a descriptor here, for instance where one was closed and opened again.

Key definitions: `EpollPoller.Quiet`, `EpollPoller.Watches`, `EpollPoller.Listed`.
Key theorems: `EpollPoller.upChannel_ok`, `EpollPoller.Listed.step`, `quiet_iff_watches`.
-/
import MuduoSe.Net.EpollPoller

namespace MuduoSe
namespace EpollPoller

variable {ι : Type}

/-- No channel that watches nothing is registered, or in the interest list. -/
structure Quiet (s : Polled (EpollPoller ι) ι) : Prop where
  index : ∀ c, (s.channel c).index_ = kin → (s.channel c).events_ ≠ 0#32
  interest : ∀ x ev, s.poller.epollfd_.interest x = some ev → (s.channel ev.ptr).events_ ≠ 0#32

/-- The channel is registered, or is to watch something. -/
def Watches (s : Polled (EpollPoller ι) ι) : EpollCall ι → Prop
  | .call (.upevent ch c) => (s.channel c).index_ = kin ∨ ch.mask (s.channel c).events_ ≠ 0#32
  | .call (.remove _) => True
  | .poll _ => True

instance (s : Polled (EpollPoller ι) ι) : (e : EpollCall ι) → Decidable (Watches s e)
  | .call (.upevent ch c) =>
    inferInstanceAs (Decidable ((s.channel c).index_ = kin ∨ ch.mask (s.channel c).events_ ≠ 0#32))
  | .call (.remove _) => inferInstanceAs (Decidable True)
  | .poll _ => inferInstanceAs (Decidable True)

/-- The elements of the interest list are registered channels. -/
def Listed (s : Polled (EpollPoller ι) ι) : Prop :=
  ∀ x ev, s.poller.epollfd_.interest x = some ev →
    (s.channel ev.ptr).fd_ = x ∧ (s.channel ev.ptr).index_ = kin

theorem Listed.quiet {s : Polled (EpollPoller ι) ι} (h : Listed s)
    (hindex : ∀ c, (s.channel c).index_ = kin → (s.channel c).events_ ≠ 0#32) : Quiet s :=
  ⟨hindex, fun x ev hev => hindex _ (h x ev hev).2⟩

variable [DecidableEq ι] {s t : Polled (EpollPoller ι) ι} {c : ι} {ch : Change}

/-! ### What a call does -/

/-- `upChannel` after a change of the mask, where no `assert` fails. -/
theorem upChannel_ok (h : upChannel (s.change ch c) c = .ok t) :
    t.channel = Function.update s.channel c
        { s.channel c with
          events_ := ch.mask (s.channel c).events_
          index_ := indexUp (s.channel c).index_ (ch.mask (s.channel c).events_) } ∧
      ∃ op, t.poller.epollfd_ = s.poller.epollfd_.ctl op (s.channel c).fd_ ⟨ch.mask (s.channel c).events_, c⟩ ∧
        (op = .EPOLL_CTL_ADD → (s.channel c).index_ ≠ kin) ∧
        (op ≠ .EPOLL_CTL_DEL → indexUp (s.channel c).index_ (ch.mask (s.channel c).events_) = kin) := by
  unfold upChannel Polled.change at h
  simp only [Change.apply_eq, Function.update_self] at h
  split_ifs at h with hix hnew hno
  · rw [pure_bind, res_pure, Except.ok.injEq] at h
    subst h
    refine ⟨?_, .EPOLL_CTL_ADD, ?_, ?_, ?_⟩
    · simp [update, Polled.setindex, indexUp, hnew, knew, kin]
    · simp [update, Polled.setindex]
    · simp [hnew, knew, kin]
    · simp [indexUp, hnew, knew, kin]
  · obtain ⟨-, -, h⟩ := bind_ok h
    obtain ⟨-, -, h⟩ := bind_ok h
    have hdel := hix.resolve_left hnew
    rw [pure_bind, res_pure, Except.ok.injEq] at h
    subst h
    refine ⟨?_, .EPOLL_CTL_ADD, ?_, ?_, ?_⟩
    · simp [update, Polled.setindex, indexUp, hdel, kdel, kin]
    · simp [update, Polled.setindex]
    · simp [hdel, kdel, kin]
    · simp [indexUp, hdel, kdel, kin]
  · obtain ⟨-, -, h⟩ := bind_ok h
    obtain ⟨-, -, h⟩ := bind_ok h
    obtain ⟨_, hkin, h⟩ := bind_ok h
    have hkin := check_ok.mp hkin
    have hno : ch.mask (s.channel c).events_ = 0#32 := by simpa [Channel.isNoEvent, Channel.kNoEvent] using hno
    rw [res_pure, Except.ok.injEq] at h
    subst h
    refine ⟨?_, .EPOLL_CTL_DEL, ?_, ?_, ?_⟩
    · simp [update, Polled.setindex, indexUp, hkin, hno]
    · simp [update, Polled.setindex]
    · simp
    · simp
  · obtain ⟨-, -, h⟩ := bind_ok h
    obtain ⟨-, -, h⟩ := bind_ok h
    obtain ⟨_, hkin, h⟩ := bind_ok h
    have hkin := check_ok.mp hkin
    have hno : ch.mask (s.channel c).events_ ≠ 0#32 := by simpa [Channel.isNoEvent, Channel.kNoEvent] using hno
    rw [res_pure, Except.ok.injEq] at h
    subst h
    refine ⟨?_, .EPOLL_CTL_MOD, ?_, ?_, ?_⟩
    · simp [update, indexUp, hkin, hno]
    · simp [update]
    · simp
    · simp [indexUp, hkin, hno]

/-- `removeChannel`, where no `assert` fails. -/
theorem removeChannel_ok (h : removeChannel s c = .ok t) :
    t.channel = Function.update s.channel c { s.channel c with index_ := knew } ∧
      ((s.channel c).index_ ≠ kin ∧ t.poller.epollfd_ = s.poller.epollfd_ ∨
        t.poller.epollfd_ = s.poller.epollfd_.ctl .EPOLL_CTL_DEL (s.channel c).fd_ ⟨(s.channel c).events_, c⟩) := by
  unfold removeChannel at h
  obtain ⟨-, -, h⟩ := bind_ok h
  obtain ⟨-, -, h⟩ := bind_ok h
  obtain ⟨-, -, h⟩ := bind_ok h
  obtain ⟨-, -, h⟩ := bind_ok h
  rw [res_pure, Except.ok.injEq] at h
  subst h
  split_ifs with hkin
  · exact ⟨rfl, .inr rfl⟩
  · exact ⟨rfl, .inl ⟨hkin, rfl⟩⟩

/-- The loop of `FillActiceChannel` does not write the poller. -/
theorem fill_poller : ∀ {evs : List (EpollEvent ι)} {s t : Polled (EpollPoller ι) ι} {active : List ι},
    fill s evs = .ok (t, active) → t.poller = s.poller
  | [], s, t, active, h => by
    rw [fill, Except.ok.injEq, Prod.mk.injEq] at h
    rw [h.1]
  | ev :: evs, s, t, active, h => by
    rw [fill] at h
    obtain ⟨-, -, h⟩ := bind_ok h
    obtain ⟨-, -, h⟩ := bind_ok h
    obtain ⟨⟨u, act⟩, hu, h⟩ := bind_ok h
    dsimp only at h
    rw [res_pure, Except.ok.injEq, Prod.mk.injEq] at h
    obtain ⟨rfl, -⟩ := h
    have hpoller := fill_poller hu
    exact hpoller

/-- A return of `epoll_wait`. -/
theorem poll_ok {ready : List (ℤ × BitVec 32)} (h : EpollPoller.step s (.poll ready) = .ok t) :
    t.poller.epollfd_ = s.poller.epollfd_ ∧ ∀ c, ∃ r, t.channel c = { s.channel c with revents_ := r } := by
  unfold EpollPoller.step poll at h
  obtain ⟨⟨u, active⟩, hu, h⟩ := bind_ok h
  dsimp only at h
  rw [res_pure, Except.ok.injEq] at h
  subst h
  split_ifs at hu
  · obtain ⟨⟨v, act⟩, hv, hu⟩ := bind_ok hu
    dsimp only at hu
    rw [res_pure, Except.ok.injEq, Prod.mk.injEq] at hu
    obtain ⟨rfl, -⟩ := hu
    obtain ⟨-, -, hv⟩ := bind_ok hv
    have hpoller := fill_poller hv
    have hchannel := fun c => fill_channel c hv
    split_ifs
    · exact ⟨by rw [hpoller], hchannel⟩
    · exact ⟨by rw [hpoller], hchannel⟩
  · rw [Except.ok.injEq, Prod.mk.injEq] at hu
    rw [← hu.1]
    exact ⟨rfl, fun c => ⟨_, rfl⟩⟩

/-! ### The invariants -/

/-- An element of the interest list that was there before a call of another channel. -/
theorem Listed.update {x : ℤ} {ev : EpollEvent ι} {ch : Channel} (h : Listed s)
    (hev : s.poller.epollfd_.interest x = some ev) (hne : ev.ptr ≠ c) :
    (Function.update s.channel c ch ev.ptr).fd_ = x ∧ (Function.update s.channel c ch ev.ptr).index_ = kin := by
  rw [Function.update_of_ne hne]
  exact h x ev hev

theorem Listed.step (h : Listed s) {e : EpollCall ι} (ht : EpollPoller.step s e = .ok t) : Listed t := by
  intro x ev hev
  match e, ht with
  | .call (.upevent ch c), ht =>
    obtain ⟨hchannel, op, hctl, hadd, hdel⟩ := upChannel_ok ht
    rw [hctl] at hev
    rw [hchannel]
    rcases Epoll.interest_ctl hev with ⟨rfl, rfl, hop⟩ | ⟨hold, hop⟩
    · rw [Function.update_self]
      exact ⟨rfl, hdel hop⟩
    · refine h.update hold ?_
      -- an element of the channel itself is registered, and is not added
      rintro rfl
      obtain ⟨hfd, hkin⟩ := h x ev hold
      exact hadd (hop hfd.symm) hkin
  | .call (.remove c), ht =>
    obtain ⟨hchannel, hpoller⟩ := removeChannel_ok ht
    rw [hchannel]
    rcases hpoller with ⟨hkin, hsame⟩ | hctl
    · rw [hsame] at hev
      refine h.update hev ?_
      rintro rfl
      exact hkin (h x ev hev).2
    · rw [hctl] at hev
      rcases Epoll.interest_ctl hev with ⟨-, -, hop⟩ | ⟨hold, hop⟩
      · exact absurd rfl hop
      · refine h.update hold ?_
        rintro rfl
        cases hop (h x ev hold).1.symm
  | .poll ready, ht =>
    obtain ⟨hsame, hchannel⟩ := poll_ok ht
    rw [hsame] at hev
    obtain ⟨r, hr⟩ := hchannel ev.ptr
    rw [hr]
    exact h x ev hev

/-- One channel goes on, and watches something if it is registered then. -/
theorem Quiet.update (h : Quiet s) (hlist : Listed t) {ch : Channel}
    (hchannel : t.channel = Function.update s.channel c ch) (hch : ch.index_ = kin → ch.events_ ≠ 0#32) :
    Quiet t := by
  refine hlist.quiet ?_
  rw [hchannel]
  intro d
  by_cases hd : d = c
  · rw [hd, Function.update_self]
    exact hch
  · rw [Function.update_of_ne hd]
    exact h.index d

/-- **A call keeps the registered channels watching, exactly if it leaves its own so.** -/
theorem quiet_step_iff (hlist : Listed s) (h : Quiet s) {e : EpollCall ι} (ht : EpollPoller.step s e = .ok t) :
    Quiet t ↔ Watches s e := by
  match e, ht with
  | .call (.upevent ch c), ht =>
    obtain ⟨hchannel, -⟩ := upChannel_ok ht
    constructor
    · intro hquiet
      refine or_iff_not_imp_left.mpr fun hkin hmask => hquiet.index c ?_ ?_
      · rw [hchannel, Function.update_self]
        exact if_neg fun hi => hkin hi.1
      · rw [hchannel, Function.update_self]
        exact hmask
    · intro hwatch
      refine h.update (hlist.step (e := .call (.upevent ch c)) ht) hchannel ?_
      intro hindex hmask
      have hkin := hwatch.resolve_right (not_not.mpr hmask)
      rw [show indexUp (s.channel c).index_ (ch.mask (s.channel c).events_) = kdel from
        if_pos ⟨hkin, hmask⟩] at hindex
      cases hindex
  | .call (.remove c), ht =>
    refine iff_of_true (h.update (hlist.step (e := .call (.remove c)) ht) (removeChannel_ok ht).1 ?_) trivial
    intro hindex
    cases hindex
  | .poll ready, ht =>
    refine iff_of_true ((hlist.step ht).quiet ?_) trivial
    intro d
    obtain ⟨r, hr⟩ := (poll_ok ht).2 d
    rw [hr]
    exact h.index d

end EpollPoller

/-- **When a channel that watches nothing is not registered.** After every step of every run, if and
only if no call leaves a channel without events that is new or disabled. -/
theorem quiet_iff_watches {ι : Type} [DecidableEq ι] (fd : ι → ℤ) {es : List (EpollCall ι)}
    {s : Polled (EpollPoller ι) ι} (h : (epollPoller ι).Run (.start fd EpollPoller.new) es s) :
    (epollPoller ι).Always (fun s e => ∀ t, (epollPoller ι).step s e = .ok t → EpollPoller.Quiet t)
        (.start fd EpollPoller.new) es ↔
      (epollPoller ι).Always EpollPoller.Watches (.start fd EpollPoller.new) es := by
  refine System.always_congr (I := fun s => EpollPoller.Listed s ∧ EpollPoller.Quiet s) ?_ ?_ ?_ h.always
  · rintro s t e ⟨hlist, hquiet⟩ - hwatch ht
    exact ⟨hlist.step ht, (EpollPoller.quiet_step_iff hlist hquiet ht).mpr hwatch⟩
  · rintro s e ⟨hlist, hquiet⟩ ⟨-, t, ht⟩
    rw [← EpollPoller.quiet_step_iff hlist hquiet ht]
    refine ⟨fun hall => hall t ht, fun hq u hu => ?_⟩
    rw [ht, Except.ok.injEq] at hu
    exact hu ▸ hq
  · have hlist : EpollPoller.Listed (Polled.start fd (EpollPoller.new : EpollPoller ι)) := by
      intro x ev hev
      cases hev
    refine ⟨hlist, hlist.quiet ?_⟩
    intro c hkin
    cases hkin

/-- Two channels of one descriptor, the second after the first was removed. -/
theorem quiet_iff_watches_reopened :
    (∃ s, (epollPoller Bool).Run (.start (fun _ => 5) EpollPoller.new)
        [.call (.upevent .enread false), .call (.upevent .disallevent false), .call (.remove false),
          .call (.upevent .enread true)] s) ∧
      (epollPoller Bool).Always (fun s e => ∀ t, (epollPoller Bool).step s e = .ok t → EpollPoller.Quiet t)
        (.start (fun _ => 5) EpollPoller.new)
        [.call (.upevent .enread false), .call (.upevent .disallevent false), .call (.remove false),
          .call (.upevent .enread true)] := by
  have h : ((epollPoller Bool).exec (.start (fun _ => 5) EpollPoller.new)
      [.call (.upevent .enread false), .call (.upevent .disallevent false), .call (.remove false),
        .call (.upevent .enread true)]).map (fun _ => ()) = some () := by decide +kernel
  obtain ⟨s, hs, -⟩ := (System.exec_map_iff _).mp h
  exact ⟨⟨s, hs⟩, (quiet_iff_watches _ hs).mpr (by decide +kernel)⟩

/-- **A channel that is disabled twice**, by `handledel` and then by `handlewrite`, is registered
again. -/
theorem disabled_twice_registered : ¬∀ (fd : Unit → ℤ) (es : List (EpollCall Unit))
    (s : Polled (EpollPoller Unit) Unit), (epollPoller Unit).Run (.start fd EpollPoller.new) es s →
      EpollPoller.Quiet s := by
  intro h
  have hrun : ((epollPoller Unit).exec (.start (fun _ => 5) EpollPoller.new)
      [.call (.upevent .enread ()), .call (.upevent .disallevent ()), .call (.upevent .diswrite ())]).map
        (fun s => ((s.channel ()).index_, (s.channel ()).events_)) = some (EpollPoller.kin, 0#32) := by
    decide +kernel
  obtain ⟨s, hs, hv⟩ := (System.exec_map_iff _).mp hrun
  rw [Prod.mk.injEq] at hv
  exact (h _ _ s hs).index () hv.1 hv.2

end MuduoSe
