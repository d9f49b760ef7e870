/-
# The two pollers, and what a poller is for

Both pollers are given the same calls, each with its own copies of the channels, beside the
`Interest` these calls make. What an `EpollPoller` has in its interest list is always what is
to be watched. A `PollPoller` negates the descriptor of a channel that watches nothing and
does not take that back, keeps the index of a channel it removes, and erases the wrong key;
its array watches the same exactly as long as every call is `Sound`, a condition on its
state before the call.

Key definitions: `TwoPollers.step`, `TwoPollers.Agree`, `PollPoller.Sound`, `twoPollers`.
Key theorems: `EpollPoller.watched_eq`, `PollPoller.Kept.step`, `PollPoller.Kept.sound`,
`twoPollers_agree_iff`.
-/
import MuduoSe.Net.EpollPoller
import MuduoSe.Net.PollPoller

namespace MuduoSe

/-! ### What each of them watches -/

namespace EpollPoller

variable {ι : Type}

/-- The descriptors of the interest list that are watched for something. -/
def watched (p : EpollPoller ι) : Set (ℤ × BitVec 32) :=
  {q | ∃ ev, p.epollfd_.interest q.1 = some ev ∧ ev.events ≠ 0#32 ∧ q.2 = ev.events}

/-- The indices and masks are those of the calls. -/
structure Tracks (s : Polled (EpollPoller ι) ι) (w : Interest ι) : Prop where
  registered : ∀ c, w.registered c = true ↔ (s.channel c).index_ ≠ knew
  events : ∀ c, w.events c = (s.channel c).events_
  deleted : ∀ c, (s.channel c).index_ = kdel → (s.channel c).events_ = 0#32

end EpollPoller

namespace PollPoller

variable {ι : Type}

/-- What `::poll` watches: it ignores the elements with a negative descriptor. -/
def watched (p : PollPoller ι) : Set (ℤ × BitVec 32) :=
  {q | ∃ pfd ∈ p.pollffd_, 0 ≤ pfd.fd ∧ pfd.events ≠ 0#16 ∧ q = (pfd.fd, pfd.events.setWidth 32)}

/-- What a call needs of the state: a new channel, or one whose element is its own and not
negated, if it is to watch something; an element that is its own or watches nothing, if it
is not. A channel that is removed must be in the map, with its own, negated element, and so
must the channel of the last element, if that is another. -/
def Sound (s : Polled (PollPoller ι) ι) : PollerCall ι → Prop
  | .upevent ch c =>
    (s.channel c).index_ < 0 ∨ ∃ pfd, s.poller.at_ (s.channel c).index_ = .ok pfd ∧
      (pfd.fd = (s.channel c).fd_ ∨ ch.mask (s.channel c).events_ = 0#32 ∧ pfd.events = 0#16)
  | .remove c =>
    s.poller.channel_map (s.channel c).fd_ = some c ∧
      (∃ pfd, s.poller.at_ (s.channel c).index_ = .ok pfd ∧ pfd.fd = -(s.channel c).fd_ - 1) ∧
      ((s.channel c).index_ = s.poller.pollffd_.length - 1 ∨
        ∃ back, s.poller.at_ (s.poller.pollffd_.length - 1) = .ok back ∧
          back.owner ≠ (s.channel c).index_ ∧ s.poller.channel_map back.owner ≠ none)

instance {α : Type} (x : Res α) (P : α → Prop) [DecidablePred P] : Decidable (∃ a, x = .ok a ∧ P a) :=
  match x with
  | .ok a => decidable_of_iff (P a) (by simp)
  | .error _ => isFalse (by simp)

instance [DecidableEq ι] (s : Polled (PollPoller ι) ι) : (e : PollerCall ι) → Decidable (Sound s e)
  | .upevent _ _ => by unfold Sound; infer_instance
  | .remove _ => by unfold Sound; infer_instance

end PollPoller

/-! ### Runs of both -/

structure TwoPollers (ι : Type) where
  epoll : Polled (EpollPoller ι) ι
  poll : Polled (PollPoller ι) ι
  /-- What the calls so far registered. -/
  interest : Interest ι

namespace TwoPollers

variable {ι : Type} [DecidableEq ι]

def start (fd : ι → ℤ) : TwoPollers ι :=
  ⟨.start fd EpollPoller.new, .start fd PollPoller.new, .empty⟩

def step (s : TwoPollers ι) (e : PollerCall ι) : Res (TwoPollers ι) := do
  let epoll ← EpollPoller.impl.call s.epoll e
  let poll ← PollPoller.impl.call s.poll e
  return ⟨epoll, poll, s.interest.step e⟩

/-- Both watch what is to be watched. -/
def Agree (fd : ι → ℤ) (s : TwoPollers ι) : Prop :=
  s.poll.poller.watched = s.interest.watched fd ∧ s.epoll.poller.watched = s.interest.watched fd

/-- The call ends without a fault, and both watch what is to be watched. -/
def Agrees (fd : ι → ℤ) (s : TwoPollers ι) (e : PollerCall ι) : Prop := ∃ t, s.step e = .ok t ∧ t.Agree fd

end TwoPollers

/-- Both pollers under the same calls. A channel is removed while it is registered and
watches nothing, as it is after `disallevent`. -/
def twoPollers (ι : Type) [DecidableEq ι] : System (TwoPollers ι) (PollerCall ι) Fault where
  guard s
    | .upevent _ _ => True
    | .remove c => s.interest.registered c = true ∧ s.interest.events c = 0#32
  step := TwoPollers.step

instance {ι : Type} [DecidableEq ι] (s : TwoPollers ι) : (e : PollerCall ι) → Decidable ((twoPollers ι).guard s e)
  | .upevent _ _ => inferInstanceAs (Decidable True)
  | .remove c => inferInstanceAs (Decidable (s.interest.registered c = true ∧ s.interest.events c = 0#32))

/-! ### The interest list is always right -/

namespace EpollPoller

variable {ι : Type} {fd : ι → ℤ} {s : Polled (EpollPoller ι) ι} {w : Interest ι}

theorem Tracks.start (fd : ι → ℤ) : Tracks (Polled.start fd EpollPoller.new) Interest.empty where
  registered c := by simp [Polled.start, Channel.new, Interest.empty, knew]
  events c := rfl
  deleted c _ := rfl

theorem watched_eq (h : Good fd s) (ht : Tracks s w) : s.poller.watched = w.watched fd := by
  ext ⟨x, m⟩
  constructor
  · rintro ⟨ev, hev, hne, rfl⟩
    obtain ⟨hx, hi, hm⟩ := (h.interest _ _).mp hev
    refine ⟨ev.ptr, (ht.registered _).mpr (by rw [hi]; decide), ?_, ?_⟩
    · rwa [ht.events, ← hm]
    · rw [ht.events, ← hm, ← h.fds, hx]
  · rintro ⟨c, hr, hne, hq⟩
    obtain ⟨rfl, rfl⟩ := Prod.mk.inj hq
    rw [ht.events] at hne
    have hi : (s.channel c).index_ = kin := by
      rcases h.index c with hi | hi | hi
      · exact absurd hi ((ht.registered c).mp hr)
      · exact hi
      · exact absurd (ht.deleted c hi) hne
    refine ⟨⟨(s.channel c).events_, c⟩, (h.interest _ _).mpr ⟨h.fds c, hi, rfl⟩, hne, ?_⟩
    rw [ht.events]

variable [DecidableEq ι]

theorem Tracks.put (ht : Tracks s w) {c : ι} {ch : Channel} {rs : List Bool} {r : Bool} {m : BitVec 32}
    (hr : r = true ↔ ch.index_ ≠ knew) (hm : m = ch.events_) (hdel : ch.index_ = kdel → ch.events_ = 0#32) :
    Tracks (put s c ch rs) ⟨Function.update w.registered c r, Function.update w.events c m⟩ where
  registered d := by
    unfold EpollPoller.put
    by_cases hd : d = c
    · subst hd; simpa using hr
    · simpa [hd] using ht.registered d
  events d := by
    unfold EpollPoller.put
    by_cases hd : d = c
    · subst hd; simpa using hm
    · simpa [hd] using ht.events d
  deleted d := by
    unfold EpollPoller.put
    by_cases hd : d = c
    · subst hd; simpa using hdel
    · simpa [hd] using ht.deleted d

/-- The poller follows the calls; only a registered channel that watches nothing is removed. -/
theorem Tracks.step (hfd : Function.Injective fd) (h : Good fd s) (ht : Tracks s w) {e : PollerCall ι}
    (he : ∀ c, e = .remove c → w.registered c = true ∧ w.events c = 0#32) :
    ∃ t, impl.call s e = .ok t ∧ Good fd t ∧ Tracks t (w.step e) := by
  cases e with
  | upevent ch c =>
    obtain ⟨t, hok, hg⟩ := h.upevent hfd ch c
    refine ⟨t, hok, hg, ?_⟩
    rw [upChannel_spec h hfd, Except.ok.injEq] at hok
    subst hok
    apply ht.put
    · have := indexUp_eq (s.channel c).index_ (ch.apply (s.channel c)).events_
      dsimp only
      rcases this with hi | hi <;> rw [hi] <;> decide
    · rw [ht.events, Change.apply_eq]
    · unfold indexUp
      dsimp only
      split_ifs with hm
      · exact fun _ => hm.2
      · intro hi
        cases hi
  | remove c =>
    obtain ⟨hr, hm⟩ := he c rfl
    have hix := (h.index c).resolve_left ((ht.registered c).mp hr)
    have hrem : removable s c := by
      refine ⟨(h.channels _ _).mpr ⟨rfl, hix⟩, ?_, hix.symm⟩
      rw [Channel.isNoEvent, ← ht.events, hm]
      rfl
    obtain ⟨rs, hrs, hok⟩ := removeChannel_spec h hfd hrem
    refine ⟨_, hok, h.put hfd (h.fds c) (.inl rfl) hrs, ?_⟩
    have hsame := Function.update_eq_self c w.events
    rw [ht.events] at hsame
    rw [Interest.step, ← hsame]
    exact ht.put (by simp) rfl (fun hi => by cases hi)

end EpollPoller

/-! ### The array, as long as every call is sound -/

namespace PollPoller

/-- The masks a channel can get. -/
def masks : List (BitVec 32) := [0#32, 3#32, 4#32, 7#32]

theorem mem_masks {m : BitVec 32} : m ∈ masks ↔ m = 0#32 ∨ m = 3#32 ∨ m = 4#32 ∨ m = 7#32 := by
  simp [masks]

theorem mask_mem_masks {m : BitVec 32} (h : m ∈ masks) (ch : Change) : ch.mask m ∈ masks := by
  rw [mem_masks] at h ⊢
  rcases h with rfl | rfl | rfl | rfl <;> cases ch <;> decide

/-- A mask fits the `short` of its element. -/
theorem widen_masks {m : BitVec 32} (h : m ∈ masks) : (m.setWidth 16).setWidth 32 = m := by
  rcases mem_masks.mp h with rfl | rfl | rfl | rfl <;> decide

theorem narrow_masks {m : BitVec 32} (h : m ∈ masks) : m.setWidth 16 = 0#16 ↔ m = 0#32 := by
  rcases mem_masks.mp h with rfl | rfl | rfl | rfl <;> decide

variable {ι : Type} {fd : ι → ℤ} {s : Polled (PollPoller ι) ι} {w : Interest ι}

/-- An element belongs to one channel, which has its index, and watches what this channel is
registered for, if anything. -/
structure Kept (fd : ι → ℤ) (s : Polled (PollPoller ι) ι) (w : Interest ι) : Prop where
  fds : ∀ c, (s.channel c).fd_ = fd c
  events : ∀ c, w.events c = (s.channel c).events_
  masked : ∀ c, w.events c ∈ masks
  index : ∀ (i : ℕ) pfd c, s.poller.pollffd_[i]? = some pfd → pfd.owner = fd c → (s.channel c).index_ = i
  owned : ∀ (i : ℕ) pfd, s.poller.pollffd_[i]? = some pfd → ∃ c, pfd.owner = fd c
  muted : ∀ (i : ℕ) pfd, s.poller.pollffd_[i]? = some pfd → pfd.fd < 0 → pfd.events = 0#16
  map : ∀ x c, s.poller.channel_map x = some c → fd c = x
  fresh : ∀ c, (s.channel c).index_ < 0 → w.registered c = false
  only : ∀ (i : ℕ) pfd c, s.poller.pollffd_[i]? = some pfd → pfd.fd = fd c → pfd.events ≠ 0#16 →
    w.registered c = true ∧ pfd.events = (w.events c).setWidth 16
  covers : ∀ c, w.registered c = true → w.events c ≠ 0#32 →
    ∃ (i : ℕ) (pfd : PollFd), s.poller.pollffd_[i]? = some pfd ∧ pfd.fd = fd c ∧
      pfd.events = (w.events c).setWidth 16

theorem owner_of_fd {pfd : PollFd} {x : ℤ} (hx : 0 ≤ x) (h : pfd.fd = x ∨ pfd.fd = -x - 1) : pfd.owner = x := by
  unfold PollFd.owner
  split_ifs <;> omega

theorem Kept.start (fd : ι → ℤ) : Kept fd (Polled.start fd PollPoller.new) Interest.empty where
  fds _ := rfl
  events _ := rfl
  masked _ := mem_masks.mpr (.inl rfl)
  index i pfd c h := by simp [Polled.start, PollPoller.new] at h
  owned i pfd h := by simp [Polled.start, PollPoller.new] at h
  muted i pfd h := by simp [Polled.start, PollPoller.new] at h
  map x c h := by simp [Polled.start, PollPoller.new] at h
  fresh c _ := rfl
  only i pfd c h := by simp [Polled.start, PollPoller.new] at h
  covers c h := by simp [Interest.empty] at h

/-- The array watches what is to be watched. -/
theorem Kept.watched_eq (h : Kept fd s w) (hnat : ∀ c, 0 ≤ fd c) : s.poller.watched = w.watched fd := by
  ext q
  constructor
  · rintro ⟨pfd, hmem, hpos, hne, rfl⟩
    obtain ⟨i, hi⟩ := List.mem_iff_getElem?.mp hmem
    obtain ⟨c, hc⟩ := h.owned i pfd hi
    have hfd : pfd.fd = fd c := by rw [← hc, PollFd.owner, if_neg (not_lt.mpr hpos)]
    obtain ⟨hr, hm⟩ := h.only i pfd c hi hfd hne
    refine ⟨c, hr, ?_, ?_⟩
    · exact fun h0 => hne (hm.trans ((narrow_masks (h.masked c)).mpr h0))
    · rw [hfd, hm, widen_masks (h.masked c)]
  · rintro ⟨c, hr, hne, rfl⟩
    obtain ⟨i, pfd, hi, hfd, hm⟩ := h.covers c hr hne
    refine ⟨pfd, List.mem_iff_getElem?.mpr ⟨i, hi⟩, hfd ▸ hnat c, ?_, ?_⟩
    · rw [hm]
      exact fun h0 => hne ((narrow_masks (h.masked c)).mp h0)
    · rw [hfd, hm, widen_masks (h.masked c)]

variable [DecidableEq ι]

/-! The clauses about the channels by themselves, for a channel that becomes another. -/

theorem Kept.fds_update (h : Kept fd s w) {c : ι} {ch : Channel} (hch : ch.fd_ = fd c) (d : ι) :
    (Function.update s.channel c ch d).fd_ = fd d := by
  by_cases hd : d = c
  · subst hd
    rw [Function.update_self, hch]
  · rw [Function.update_of_ne hd, h.fds d]

theorem Kept.events_update (h : Kept fd s w) (c : ι) {ch : Channel} {m : BitVec 32} (hev : ch.events_ = m)
    (d : ι) : Function.update w.events c m d = (Function.update s.channel c ch d).events_ := by
  by_cases hd : d = c
  · subst hd
    rw [Function.update_self, Function.update_self, hev]
  · rw [Function.update_of_ne hd, Function.update_of_ne hd, h.events d]

theorem Kept.masked_update (h : Kept fd s w) (c : ι) {m : BitVec 32} (hm : m ∈ masks) (d : ι) :
    Function.update w.events c m d ∈ masks := by
  by_cases hd : d = c
  · subst hd
    rw [Function.update_self]
    exact hm
  · rw [Function.update_of_ne hd]
    exact h.masked d

/-- A new element at the end. -/
theorem Kept.push (h : Kept fd s w) (hfd : Function.Injective fd) (hnat : ∀ c, 0 ≤ fd c) {c : ι}
    {ch : Channel} {m : BitVec 32} (hch : ch.fd_ = fd c) (hev : ch.events_ = m) (hm : m ∈ masks)
    (hi : ch.index_ = s.poller.pollffd_.length) (hnew : (s.channel c).index_ < 0) :
    Kept fd ⟨Function.update s.channel c ch,
      ⟨s.poller.pollffd_ ++ [⟨fd c, m.setWidth 16, 0#16⟩], Function.update s.poller.channel_map (fd c) (some c)⟩⟩
      ⟨Function.update w.registered c true, Function.update w.events c m⟩ := by
  -- an element is an old one, whose channel is another, or the new one
  have hold : ∀ (i : ℕ) pfd, (s.poller.pollffd_ ++ [⟨fd c, m.setWidth 16, 0#16⟩])[i]? = some pfd →
      s.poller.pollffd_[i]? = some pfd ∧ pfd.owner ≠ fd c ∨
        i = s.poller.pollffd_.length ∧ pfd = ⟨fd c, m.setWidth 16, 0#16⟩ := by
    intro i pfd hpfd
    rcases lt_or_ge i s.poller.pollffd_.length with hlt | hge
    · rw [List.getElem?_append_left hlt] at hpfd
      refine .inl ⟨hpfd, fun ho => ?_⟩
      have := h.index i pfd c hpfd ho
      omega
    · rw [List.getElem?_append_right hge, List.getElem?_singleton] at hpfd
      split_ifs at hpfd with h0
      · cases hpfd
        exact .inr ⟨by omega, rfl⟩
  have howner : PollFd.owner ⟨fd c, m.setWidth 16, 0#16⟩ = fd c := owner_of_fd (hnat c) (.inl rfl)
  constructor
  case fds => exact h.fds_update hch
  case events => exact h.events_update c hev
  case masked => exact h.masked_update c hm
  case index =>
    intro i pfd d hpfd ho
    rcases hold i pfd hpfd with ⟨hpfd, hne⟩ | ⟨rfl, rfl⟩
    · have hd : d ≠ c := fun he => hne (he ▸ ho)
      simpa [hd] using h.index i pfd d hpfd ho
    · rw [howner] at ho
      rw [hfd ho]
      simpa using hi
  case owned =>
    intro i pfd hpfd
    rcases hold i pfd hpfd with ⟨hpfd, -⟩ | ⟨rfl, rfl⟩
    · exact h.owned i pfd hpfd
    · exact ⟨c, howner⟩
  case muted =>
    intro i pfd hpfd hneg
    rcases hold i pfd hpfd with ⟨hpfd, -⟩ | ⟨rfl, rfl⟩
    · exact h.muted i pfd hpfd hneg
    · exact absurd (hnat c) (not_le.mpr hneg)
  case map =>
    intro x d hx
    by_cases hxc : x = fd c
    · subst hxc
      simp only [Function.update_self, Option.some.injEq] at hx
      rw [hx]
    · simp only [Function.update_of_ne hxc] at hx
      exact h.map x d hx
  case fresh =>
    intro d hneg
    by_cases hd : d = c
    · subst hd
      simp only [Function.update_self, hi] at hneg
      omega
    · simp only [Function.update_of_ne hd] at hneg ⊢
      exact h.fresh d hneg
  case only =>
    intro i pfd d hpfd hd hne
    rcases hold i pfd hpfd with ⟨hpfd, hoc⟩ | ⟨rfl, rfl⟩
    · have hdc : d ≠ c := fun he => hoc (owner_of_fd (hnat c) (.inl (he ▸ hd)))
      simpa [hdc] using h.only i pfd d hpfd hd hne
    · rw [← hfd hd]
      simp
  case covers =>
    intro d hr hne
    by_cases hd : d = c
    · subst hd
      refine ⟨s.poller.pollffd_.length, _, List.getElem?_concat_length .., rfl, ?_⟩
      simp
    · simp only [Function.update_of_ne hd] at hr hne ⊢
      obtain ⟨i, pfd, hpfd, hp⟩ := h.covers d hr hne
      refine ⟨i, pfd, ?_, hp⟩
      rw [List.getElem?_append_left (List.getElem?_eq_some_iff.mp hpfd).1]
      exact hpfd

/-- Another mask in an element. -/
theorem Kept.write (h : Kept fd s w) (hfd : Function.Injective fd) (hnat : ∀ c, 0 ≤ fd c) {c : ι}
    {ch : Channel} {m : BitVec 32} {pfd : PollFd} (hch : ch.fd_ = fd c) (hev : ch.events_ = m) (hm : m ∈ masks)
    (hi : ch.index_ = (s.channel c).index_) (hat : s.poller.at_ (s.channel c).index_ = .ok pfd)
    (hs : pfd.fd = fd c ∨ m = 0#32 ∧ pfd.events = 0#16) :
    Kept fd ⟨Function.update s.channel c ch,
      ⟨s.poller.pollffd_.set (s.channel c).index_.toNat ⟨if m = 0#32 then -1 - fd c else pfd.fd, m.setWidth 16, 0#16⟩,
        s.poller.channel_map⟩⟩
      ⟨Function.update w.registered c true, Function.update w.events c m⟩ := by
  obtain ⟨h0, hget⟩ := at_ok.mp hat
  have hlt := (List.getElem?_eq_some_iff.mp hget).1
  -- an element is an old one, whose channel is another, or the written one
  have hold : ∀ (i : ℕ) q, (s.poller.pollffd_.set (s.channel c).index_.toNat
      ⟨if m = 0#32 then -1 - fd c else pfd.fd, m.setWidth 16, 0#16⟩)[i]? = some q →
      s.poller.pollffd_[i]? = some q ∧ i ≠ (s.channel c).index_.toNat ∧ q.owner ≠ fd c ∨
        i = (s.channel c).index_.toNat ∧ q = ⟨if m = 0#32 then -1 - fd c else pfd.fd, m.setWidth 16, 0#16⟩ := by
    intro i q hq
    by_cases hic : i = (s.channel c).index_.toNat
    · subst hic
      rw [List.getElem?_set_self hlt, Option.some.injEq] at hq
      exact .inr ⟨rfl, hq.symm⟩
    · rw [List.getElem?_set_ne (Ne.symm hic)] at hq
      refine .inl ⟨hq, hic, fun ho => ?_⟩
      have := h.index i q c hq ho
      omega
  have howner : PollFd.owner ⟨if m = 0#32 then -1 - fd c else pfd.fd, m.setWidth 16, 0#16⟩ = fd c := by
    apply owner_of_fd (hnat c)
    dsimp only
    split_ifs with hm0
    · exact .inr (by omega)
    · exact .inl (hs.resolve_right fun hs => hm0 hs.1)
  have hixs : ∀ d, (Function.update s.channel c ch d).index_ = (s.channel d).index_ :=
    (Function.forall_update_iff _ fun d (x : Channel) => x.index_ = (s.channel d).index_).mpr
      ⟨hi, fun _ _ => rfl⟩
  constructor
  case fds => exact h.fds_update hch
  case events => exact h.events_update c hev
  case masked => exact h.masked_update c hm
  case index =>
    intro i q d hq ho
    rw [hixs]
    rcases hold i q hq with ⟨hq, -, -⟩ | ⟨rfl, rfl⟩
    · exact h.index i q d hq ho
    · rw [howner] at ho
      rw [← hfd ho]
      omega
  case owned =>
    intro i q hq
    rcases hold i q hq with ⟨hq, -, -⟩ | ⟨rfl, rfl⟩
    · exact h.owned i q hq
    · exact ⟨c, howner⟩
  case muted =>
    intro i q hq hneg
    rcases hold i q hq with ⟨hq, -, -⟩ | ⟨rfl, rfl⟩
    · exact h.muted i q hq hneg
    · have := hnat c
      dsimp only at hneg ⊢
      split_ifs at hneg with hm0
      · rw [hm0]; rfl
      · have := hs.resolve_right fun hs => hm0 hs.1
        omega
  case map => exact h.map
  case fresh =>
    intro d hneg
    rw [hixs] at hneg
    have hd : d ≠ c := fun he => by rw [he] at hneg; omega
    simpa [hd] using h.fresh d hneg
  case only =>
    intro i q d hq hd hne
    rcases hold i q hq with ⟨hq, -, hoc⟩ | ⟨rfl, rfl⟩
    · have hdc : d ≠ c := fun he => hoc (owner_of_fd (hnat c) (.inl (he ▸ hd)))
      simpa [hdc] using h.only i q d hq hd hne
    · have hdc := hfd (howner.symm.trans (owner_of_fd (hnat d) (.inl hd)))
      subst hdc
      simp
  case covers =>
    intro d hr hne
    by_cases hd : d = c
    · subst hd
      simp only [Function.update_self] at hne ⊢
      refine ⟨_, _, List.getElem?_set_self hlt, ?_, rfl⟩
      dsimp only
      rw [if_neg hne]
      exact hs.resolve_right fun hs => hne hs.1
    · simp only [Function.update_of_ne hd] at hr hne ⊢
      obtain ⟨i, q, hq, hqfd, hqe⟩ := h.covers d hr hne
      refine ⟨i, q, ?_, hqfd, hqe⟩
      rw [List.getElem?_set_ne]
      · exact hq
      · -- the written element is the channel's own, or watched nothing
        rintro rfl
        rw [hget, Option.some.injEq] at hq
        subst hq
        rcases hs with hs | ⟨-, hs⟩
        · exact hd (hfd (hqfd.symm.trans hs))
        · exact hne ((narrow_masks (h.masked d)).mp (hqe ▸ hs))

/-- An element less, some of the others at another place, to which their channels' indices
were set. -/
theorem Kept.drop (h : Kept fd s w) (hnat : ∀ c, 0 ≤ fd c) {c : ι} {t : Polled (PollPoller ι) ι} {pfd : PollFd}
    (hat : s.poller.at_ (s.channel c).index_ = .ok pfd) (hc : pfd.fd = -fd c - 1)
    (hch : ∀ d, ∃ i, t.channel d = { s.channel d with index_ := i } ∧ (i < 0 → (s.channel d).index_ < 0))
    (hmap : ∀ x d, t.poller.channel_map x = some d → s.poller.channel_map x = some d)
    (hfrom : ∀ (i : ℕ) q, t.poller.pollffd_[i]? = some q → ∃ j : ℕ, s.poller.pollffd_[j]? = some q ∧
      (j : ℤ) ≠ (s.channel c).index_ ∧ ∀ d, q.owner = fd d → (t.channel d).index_ = i)
    (hto : ∀ (j : ℕ) q, s.poller.pollffd_[j]? = some q → (j : ℤ) ≠ (s.channel c).index_ →
      ∃ i : ℕ, t.poller.pollffd_[i]? = some q) :
    Kept fd t ⟨Function.update w.registered c false, w.events⟩ := by
  constructor
  case fds =>
    intro d
    obtain ⟨i, hi, -⟩ := hch d
    rw [hi]
    exact h.fds d
  case events =>
    intro d
    obtain ⟨i, hi, -⟩ := hch d
    rw [hi]
    exact h.events d
  case masked => exact h.masked
  case index =>
    intro i q d hq ho
    obtain ⟨j, -, -, hj⟩ := hfrom i q hq
    exact hj d ho
  case owned =>
    intro i q hq
    obtain ⟨j, hj, -⟩ := hfrom i q hq
    exact h.owned j q hj
  case muted =>
    intro i q hq
    obtain ⟨j, hj, -⟩ := hfrom i q hq
    exact h.muted j q hj
  case map => exact fun x d hx => h.map x d (hmap x d hx)
  case fresh =>
    intro d hneg
    obtain ⟨i, hi, hlt⟩ := hch d
    rw [hi] at hneg
    by_cases hd : d = c
    · simp [hd]
    · simpa [hd] using h.fresh d (hlt hneg)
  case only =>
    intro i q d hq hd hne
    obtain ⟨j, hj, hjc, -⟩ := hfrom i q hq
    have hdc : d ≠ c := by
      rintro rfl
      exact hjc (h.index j q d hj (owner_of_fd (hnat d) (.inl hd))).symm
    simpa [hdc] using h.only j q d hj hd hne
  case covers =>
    intro d hr hne
    by_cases hd : d = c
    · simp [hd] at hr
    · simp only [Function.update_of_ne hd] at hr
      obtain ⟨j, q, hq, hqfd, hqe⟩ := h.covers d hr hne
      obtain ⟨i, hi⟩ := hto j q hq (by
        -- the dropped element is negated
        intro hj
        obtain ⟨h0, hget⟩ := at_ok.mp hat
        rw [← hj, Int.toNat_natCast, hq, Option.some.injEq] at hget
        subst hget
        have := hnat c
        have := hnat d
        omega)
      exact ⟨i, q, hi, hqfd, hqe⟩

section Remove

variable {c : ι} {pfd : PollFd} (hmap : s.poller.channel_map (s.channel c).fd_ = some c)
  (hno : (s.channel c).isNoEvent = true) (hat : s.poller.at_ (s.channel c).index_ = .ok pfd)
  (hneg : pfd.fd = -(s.channel c).fd_ - 1)

include hmap hno hat hneg

/-- What `removeChannel` does where the last element is the channel's. -/
theorem removeChannel_last (hlast : (s.channel c).index_ = s.poller.pollffd_.length - 1) :
    removeChannel s c = .ok ⟨s.channel, s.poller.pollffd_.dropLast,
      Function.update s.poller.channel_map (s.channel c).index_ none⟩ := by
  unfold removeChannel
  simp only [check_pos (show s.poller.channel_map (s.channel c).fd_ ≠ none by rw [hmap]; simp),
    check_pos hmap, check_pos hno, hat, check_pos hneg, ok_bind]
  rw [if_pos hlast]
  rfl

/-- What it does where the last element is that of the channel `d`. -/
theorem removeChannel_swap {back : PollFd} {d : ι} (hlast : (s.channel c).index_ ≠ s.poller.pollffd_.length - 1)
    (hback : s.poller.at_ (s.poller.pollffd_.length - 1) = .ok back)
    (hd : Function.update s.poller.channel_map (s.channel c).index_ none back.owner = some d) :
    removeChannel s c = .ok ⟨Function.update s.channel d { s.channel d with index_ := (s.channel c).index_ },
      (s.poller.pollffd_.set (s.channel c).index_.toNat back).dropLast,
      Function.update s.poller.channel_map (s.channel c).index_ none⟩ := by
  unfold removeChannel
  simp only [check_pos (show s.poller.channel_map (s.channel c).fd_ ≠ none by rw [hmap]; simp),
    check_pos hmap, check_pos hno, hat, check_pos hneg, ok_bind]
  have hback' : (⟨s.poller.pollffd_, Function.update s.poller.channel_map (s.channel c).index_ none⟩ :
      PollPoller ι).at_ (s.poller.pollffd_.length - 1) = .ok back := hback
  rw [if_neg hlast, hback', ok_bind]
  rw [hd]
  rfl

end Remove

/-- A sound removal. -/
theorem Kept.remove (h : Kept fd s w) (hfd : Function.Injective fd) (hnat : ∀ c, 0 ≤ fd c) {c : ι}
    (hev : w.events c = 0#32) (hs : Sound s (.remove c)) :
    ∃ t, removeChannel s c = .ok t ∧ Kept fd t ⟨Function.update w.registered c false, w.events⟩ := by
  obtain ⟨hmap, ⟨pfd, hat, hneg⟩, hlast⟩ := hs
  have hno : (s.channel c).isNoEvent = true := by
    rw [Channel.isNoEvent, ← h.events, hev]
    rfl
  obtain ⟨h0, hlt⟩ := at_lt hat
  have hneg' := hneg
  rw [h.fds] at hneg'
  have herase : ∀ x d, Function.update s.poller.channel_map (s.channel c).index_ none x = some d →
      s.poller.channel_map x = some d := by
    intro x d hx
    by_cases hxi : x = (s.channel c).index_
    · simp [hxi] at hx
    · rwa [Function.update_of_ne hxi] at hx
  by_cases hl : (s.channel c).index_ = s.poller.pollffd_.length - 1
  · refine ⟨_, removeChannel_last hmap hno hat hneg hl, h.drop hnat hat hneg' ?_ herase ?_ ?_⟩
    · exact fun d => ⟨_, rfl, id⟩
    · intro i q hq
      dsimp only at hq
      rw [List.getElem?_dropLast] at hq
      split_ifs at hq with hi
      exact ⟨i, hq, by omega, fun d hd => h.index i q d hq hd⟩
    · intro j q hq hj
      refine ⟨j, ?_⟩
      dsimp only
      have := (List.getElem?_eq_some_iff.mp hq).1
      rw [List.getElem?_dropLast, if_pos (by omega), hq]
  · obtain ⟨back, hback, hkey, hin⟩ := hlast.resolve_left hl
    obtain ⟨b, hb⟩ := Option.ne_none_iff_exists'.mp hin
    have hd : Function.update s.poller.channel_map (s.channel c).index_ none back.owner = some b := by
      rw [Function.update_of_ne hkey, hb]
    have hlastget := (at_ok.mp hback).2
    have hbfd := h.map _ _ hb
    refine ⟨_, removeChannel_swap hmap hno hat hneg hl hback hd, h.drop hnat hat hneg' ?_ herase ?_ ?_⟩
    · intro d
      by_cases hdb : d = b
      · subst hdb
        exact ⟨_, Function.update_self .., fun hi => by omega⟩
      · exact ⟨_, Function.update_of_ne hdb .., id⟩
    · intro i q hq
      dsimp only at hq ⊢
      rw [List.getElem?_dropLast, List.length_set] at hq
      split_ifs at hq with hi
      by_cases hic : (s.channel c).index_.toNat = i
      · -- the moved element
        subst hic
        rw [List.getElem?_set_self (by omega), Option.some.injEq] at hq
        subst hq
        refine ⟨_, hlastget, by omega, fun d hd => ?_⟩
        rw [hfd (hd.symm.trans hbfd.symm), Function.update_self]
        dsimp only
        omega
      · rw [List.getElem?_set_ne hic] at hq
        refine ⟨i, hq, by omega, fun d hd => ?_⟩
        have hix := h.index i q d hq hd
        have hdb : d ≠ b := by
          rintro rfl
          have := h.index _ _ d hlastget hbfd.symm
          omega
        rw [Function.update_of_ne hdb, hix]
    · intro j q hq hj
      have hjlt := (List.getElem?_eq_some_iff.mp hq).1
      dsimp only
      by_cases hjl : j = s.poller.pollffd_.length - 1
      · refine ⟨(s.channel c).index_.toNat, ?_⟩
        rw [List.getElem?_dropLast, List.length_set, if_pos (by omega), List.getElem?_set_self (by omega), ← hq,
          ← hlastget]
        congr 1
        omega
      · refine ⟨j, ?_⟩
        rw [List.getElem?_dropLast, List.length_set, if_pos (by omega), List.getElem?_set_ne (by omega), hq]

/-- A sound change of a mask. -/
theorem Kept.upevent (h : Kept fd s w) (hfd : Function.Injective fd) (hnat : ∀ c, 0 ≤ fd c) {ch : Change}
    {c : ι} (hs : Sound s (.upevent ch c)) :
    ∃ t, upChannel (s.change ch c) c = .ok t ∧ Kept fd t (w.step (.upevent ch c)) := by
  have hm : ch.mask (s.channel c).events_ ∈ masks := by
    rw [← h.events]
    exact mask_mem_masks (h.masked c) ch
  have hch : (ch.apply (s.channel c)).fd_ = fd c := by rw [Change.apply_eq]; exact h.fds c
  rw [Interest.step, h.events]
  rcases lt_or_ge (s.channel c).index_ 0 with hneg | hpos
  · refine ⟨_, upChannel_new hneg, ?_⟩
    rw [h.fds]
    exact h.push hfd hnat hch (by rw [Change.apply_eq]) hm rfl hneg
  · obtain ⟨pfd, hat, hown⟩ := hs.resolve_left (not_lt.mpr hpos)
    refine ⟨_, upChannel_old hat, ?_⟩
    rw [h.fds] at hown ⊢
    exact h.write hfd hnat hch (by rw [Change.apply_eq]) hm (by rw [Change.apply_eq]) hat hown

/-- A sound call does what it should. -/
theorem Kept.step (h : Kept fd s w) (hfd : Function.Injective fd) (hnat : ∀ c, 0 ≤ fd c) {e : PollerCall ι}
    (he : ∀ c, e = .remove c → w.registered c = true ∧ w.events c = 0#32) (hs : Sound s e) :
    ∃ t, impl.call s e = .ok t ∧ Kept fd t (w.step e) := by
  cases e with
  | upevent ch c => exact h.upevent hfd hnat hs
  | remove c => exact h.remove hfd hnat (he c rfl).2 hs

/-- A change of a mask after which the array is right was sound. -/
theorem Kept.upevent_sound (h : Kept fd s w) (hnat : ∀ c, 0 ≤ fd c) {ch : Change}
    {c : ι} {t : Polled (PollPoller ι) ι} (hok : upChannel (s.change ch c) c = .ok t)
    (ht : t.poller.watched = (w.step (.upevent ch c)).watched fd) : Sound s (.upevent ch c) := by
  rcases lt_or_ge (s.channel c).index_ 0 with hneg | hpos
  · exact .inl hneg
  obtain ⟨pfd, hat⟩ : ∃ pfd, s.poller.at_ (s.channel c).index_ = .ok pfd := by
    cases hat : s.poller.at_ (s.channel c).index_ with
    | ok pfd => exact ⟨pfd, rfl⟩
    | error f => rw [upChannel_error hat hpos] at hok; cases hok
  obtain ⟨-, hget⟩ := at_ok.mp hat
  have hlt := (List.getElem?_eq_some_iff.mp hget).1
  rw [upChannel_old hat, Except.ok.injEq] at hok
  subst hok
  refine .inr ⟨pfd, hat, ?_⟩
  by_contra hown
  rw [not_or, h.fds] at hown
  obtain ⟨hother, hzero⟩ := hown
  -- what is watched for `d` stands in the written element, or at the index of `d`
  have hplace : ∀ d, (w.step (.upevent ch c)).registered d = true →
      (w.step (.upevent ch c)).events d ≠ 0#32 →
      fd d = (if ch.mask (s.channel c).events_ = 0#32 then -1 - fd c else pfd.fd) ∨
        (s.channel d).index_ ≠ (s.channel c).index_ := by
    intro d hr hne
    obtain ⟨q, hmem, -, -, hq⟩ := (Set.ext_iff.mp ht (fd d, _)).mpr ⟨d, hr, hne, rfl⟩
    obtain ⟨hqfd, -⟩ := Prod.mk.inj hq
    obtain ⟨i, hi⟩ := List.mem_iff_getElem?.mp hmem
    by_cases hic : i = (s.channel c).index_.toNat
    · subst hic
      rw [List.getElem?_set_self hlt, Option.some.injEq] at hi
      subst hi
      rw [h.fds] at hqfd
      exact .inl hqfd
    · rw [List.getElem?_set_ne (Ne.symm hic)] at hi
      have := h.index i q d hi (owner_of_fd (hnat d) (.inl hqfd.symm))
      exact .inr (by omega)
  by_cases hm : ch.mask (s.channel c).events_ = 0#32
  · -- the channel of the element is no longer watched
    have hne : pfd.events ≠ 0#16 := fun h0 => hzero ⟨hm, h0⟩
    have hpfd : 0 ≤ pfd.fd := not_lt.mp fun hneg => hne (h.muted _ _ hget hneg)
    obtain ⟨d, hd⟩ := h.owned _ _ hget
    have hix := h.index _ _ d hget hd
    rw [PollFd.owner, if_neg (not_lt.mpr hpfd)] at hd
    have hdc : d ≠ c := fun he => hother (he ▸ hd)
    obtain ⟨hr, hev⟩ := h.only _ _ d hget hd hne
    rcases hplace d (by simpa [Interest.step, hdc] using hr) (by
      simp only [Interest.step, Function.update_of_ne hdc]
      exact fun h0 => hne (hev.trans ((narrow_masks (h.masked d)).mpr h0))) with hq | hq
    · rw [if_pos hm] at hq
      have := hnat c
      have := hnat d
      omega
    · omega
  · -- the channel itself is not watched
    rcases hplace c (by simp [Interest.step]) (by simpa [Interest.step, h.events] using hm) with hq | hq
    · rw [if_neg hm] at hq
      exact hother hq.symm
    · exact hq rfl

/-- A removal that ends without a fault was sound. -/
theorem removeChannel_sound {c : ι} {t : Polled (PollPoller ι) ι} (h : removeChannel s c = .ok t) :
    Sound s (.remove c) := by
  unfold removeChannel at h
  obtain ⟨_, -, h⟩ := bind_ok h
  obtain ⟨_, hmap, h⟩ := bind_ok h
  obtain ⟨_, -, h⟩ := bind_ok h
  obtain ⟨pfd, hat, h⟩ := bind_ok h
  obtain ⟨_, hneg, h⟩ := bind_ok h
  refine ⟨check_ok.mp hmap, ⟨pfd, hat, check_ok.mp hneg⟩, ?_⟩
  dsimp only at h
  split_ifs at h with hlast
  · exact .inl hlast
  · obtain ⟨back, hback, h⟩ := bind_ok h
    refine .inr ⟨back, hback, ?_⟩
    split at h
    · cases h
    · rename_i d hd
      by_cases hkey : back.owner = (s.channel c).index_
      · rw [hkey, Function.update_self] at hd
        cases hd
      · rw [Function.update_of_ne hkey] at hd
        exact ⟨hkey, by rw [hd]; simp⟩

/-- A call after which the array is right was sound. -/
theorem Kept.sound (h : Kept fd s w) (hnat : ∀ c, 0 ≤ fd c) {e : PollerCall ι}
    {t : Polled (PollPoller ι) ι} (hok : impl.call s e = .ok t)
    (ht : t.poller.watched = (w.step e).watched fd) : Sound s e := by
  cases e with
  | upevent ch c => exact h.upevent_sound hnat hok ht
  | remove c => exact removeChannel_sound hok

end PollPoller

/-! ### Both together -/

namespace TwoPollers

variable {ι : Type} [DecidableEq ι] {fd : ι → ℤ} {s : TwoPollers ι}

structure Good (fd : ι → ℤ) (s : TwoPollers ι) : Prop where
  epoll : EpollPoller.Good fd s.epoll
  tracks : EpollPoller.Tracks s.epoll s.interest
  poll : PollPoller.Kept fd s.poll s.interest

omit [DecidableEq ι] in
theorem Good.start (fd : ι → ℤ) : Good fd (start fd) :=
  ⟨EpollPoller.Good.start fd, EpollPoller.Tracks.start fd, PollPoller.Kept.start fd⟩

theorem guard_remove {e : PollerCall ι} (he : (twoPollers ι).guard s e) (c : ι) (hc : e = .remove c) :
    s.interest.registered c = true ∧ s.interest.events c = 0#32 := by
  subst hc
  exact he

/-- A sound call keeps everything right. -/
theorem Good.step (h : Good fd s) (hfd : Function.Injective fd) (hnat : ∀ c, 0 ≤ fd c) {e : PollerCall ι}
    (he : (twoPollers ι).guard s e) (hs : PollPoller.Sound s.poll e) :
    ∃ t, s.step e = .ok t ∧ t.Good fd := by
  obtain ⟨epoll, hepoll, hg, htr⟩ := h.tracks.step hfd h.epoll (guard_remove he)
  obtain ⟨poll, hpoll, hk⟩ := h.poll.step hfd hnat (guard_remove he) hs
  refine ⟨⟨epoll, poll, s.interest.step e⟩, ?_, hg, htr, hk⟩
  rw [TwoPollers.step, hepoll, ok_bind, hpoll, ok_bind]
  rfl

/-- A call ends well exactly if it was sound. -/
theorem Good.agrees_iff (h : Good fd s) (hfd : Function.Injective fd) (hnat : ∀ c, 0 ≤ fd c) {e : PollerCall ι}
    (he : (twoPollers ι).guard s e) : Agrees fd s e ↔ PollPoller.Sound s.poll e := by
  constructor
  · rintro ⟨t, ht, hw, -⟩
    obtain ⟨epoll, -, ht⟩ := bind_ok ht
    obtain ⟨poll, hpoll, ht⟩ := bind_ok ht
    cases ht
    exact h.poll.sound hnat hpoll hw
  · intro hs
    obtain ⟨t, ht, hg⟩ := h.step hfd hnat he hs
    obtain ⟨epoll, -, ht'⟩ := bind_ok ht
    obtain ⟨poll, -, ht'⟩ := bind_ok ht'
    exact ⟨t, ht, hg.poll.watched_eq hnat, EpollPoller.watched_eq hg.epoll hg.tracks⟩

end TwoPollers

/-- The two pollers watch the same, and what is to be watched, after every call of a run,
exactly if every call of it is sound for the `PollPoller`. -/
theorem twoPollers_agree_iff {ι : Type} [DecidableEq ι] (fd : ι → ℤ) (hfd : Function.Injective fd)
    (hnat : ∀ c, 0 ≤ fd c) (es : List (PollerCall ι))
    (hes : (twoPollers ι).Always (twoPollers ι).guard (.start fd) es) :
    (twoPollers ι).Always (TwoPollers.Agrees fd) (.start fd) es ↔
      (twoPollers ι).Always (fun s e => PollPoller.Sound s.poll e) (.start fd) es := by
  apply System.always_congr (I := TwoPollers.Good fd) (G := (twoPollers ι).guard) _ _ (.start fd) hes
  · intro s t e h he hs ht
    obtain ⟨u, hu, hg⟩ := h.step hfd hnat he hs
    have : u = t := Except.ok.inj (hu.symm.trans ht)
    exact this ▸ hg
  · intro s e h he
    exact h.agrees_iff hfd hnat he

/-- Two channels, one of which is disabled and removed: all calls are sound. -/
theorem twoPollers_agree_iff_removed :
    (twoPollers Bool).Always (TwoPollers.Agrees fun c => if c then 7 else 5) (.start fun c => if c then 7 else 5)
      [.upevent .enread false, .upevent .enwrite true, .upevent .disallevent false, .remove false,
        .upevent .enread true] :=
  (twoPollers_agree_iff _ (fun a b => by revert a b; decide) (by decide) _ (by decide +kernel)).mpr
    (by decide +kernel)

/-- A channel that is enabled, disabled and enabled again: its descriptor stays negated. -/
theorem twoPollers_not_agree :
    let es : List (PollerCall Unit) := [.upevent .enread (), .upevent .disallevent (), .upevent .enread ()]
    (twoPollers Unit).Always (twoPollers Unit).guard (.start fun _ => 5) es ∧
      ¬ (twoPollers Unit).Always (TwoPollers.Agrees fun _ => 5) (.start fun _ => 5) es := by
  refine ⟨by decide +kernel, fun h => ?_⟩
  obtain ⟨t, ht, hpoll, -⟩ := ((h.2 _ rfl).2 _ rfl).1
  cases ht
  obtain ⟨pfd, hmem, hpos, -⟩ := hpoll.ge ⟨(), rfl, by decide, rfl⟩
  rw [List.mem_singleton.mp hmem] at hpos
  exact absurd hpos (by decide)

end MuduoSe
