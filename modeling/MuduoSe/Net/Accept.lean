/-
# Acceptor: the listening socket and the spare descriptor

`net/Accept.cc` and what it uses of `net/Socket.cc`. When `accept` fails because the process has no
free descriptor, `handleRead` gives up the spare one that it holds on `/dev/null`, accepts the client
with it, closes that connection, and opens `/dev/null` again. Each of these calls is a step: other
threads open files (the logger) and close some of theirs in between, and a `TcpConnect` that is
destroyed closes its connection. `epoll` is level-triggered, so `handleRead` is called only where a
client waits.

Linux looks for a free descriptor before it looks for a client, and returns the lowest one.

* `acceptor_owns`: in every interleaving the acceptor closes only what it holds, and loses nothing.
* `connections_apart`: the connections have descriptors of their own.

Key definitions: `Acceptor`, `Acceptor.handleRead`, `Acceptor.turnAway`, `acceptor`.
Key theorems: `acceptor_moved`, `Owns.step`, `acceptor_owns`, `connections_apart`.
-/
import MuduoSe.Base.Buffer
import MuduoSe.Lib.Descriptors
import MuduoSe.Lib.System

namespace MuduoSe

/-- What a descriptor was opened for. -/
inductive Holder (κ : Type)
  /-- `listenfd_` -/
  | listen
  /-- `/dev/null` of the acceptor. -/
  | null
  /-- The connection of a client, for `func`. -/
  | client (c : κ)
  /-- A connection that was accepted to be closed. -/
  | refused (c : κ)
  /-- Of another thread. -/
  | other
  deriving DecidableEq, Repr

inductive Errno
  | EBADF
  | EMFILE
  | EAGAIN
  deriving DecidableEq, Repr

/-- Where the thread of the acceptor is. -/
inductive AcceptPc
  | out
  /-- In `handleRead` with `errno==EMFILE`, before `close(nullfd_)`. -/
  | full
  /-- Before `accept(listenfd_.fd(),NULL,NULL)`. -/
  | released
  /-- Before the second `close(nullfd_)`. -/
  | refusing
  /-- Before `open`. -/
  | reopening
  deriving DecidableEq, Repr

structure Acceptor (κ : Type) where
  files : Descriptors (Holder κ)
  /-- The clients that wait to be accepted. -/
  backlog : List κ
  listenfd_ : ℤ
  nullfd_ : ℤ
  /-- `func` is set. -/
  func : Bool
  pc : AcceptPc
  arrived : List κ
  /-- The clients that were accepted, with the descriptor that `func` was given or none. -/
  taken : List (κ × Option ℤ)
  /-- What was closed, and what it was. -/
  closed : List (ℤ × Option (Holder κ))

inductive AcceptEvent (κ : Type)
  /-- A client connects. -/
  | arrive (c : κ)
  | handleRead
  /-- The next call of `handleRead` with `errno==EMFILE`. -/
  | turnAway
  /-- Another thread opens a file. -/
  | opens
  /-- Another thread closes a file of its own. -/
  | closes (fd : ℤ)
  /-- A connection is destroyed. -/
  | destroy (fd : ℤ)
  deriving DecidableEq, Repr

namespace Holder

variable {κ : Type}

def isClient : Holder κ → Bool
  | .client _ => true
  | _ => false

def isOther : Holder κ → Bool
  | .other => true
  | _ => false

/-- What only the acceptor closes. -/
def own : Holder κ → Bool
  | .null | .refused _ => true
  | _ => false

end Holder

/-- What `nullfd_` is there. -/
def AcceptPc.keeps {κ : Type} : AcceptPc → Holder κ → Bool
  | .out, .null | .full, .null | .refusing, .refused _ => true
  | _, _ => false

namespace Acceptor

variable {κ : Type}

/-- The constructor, in a process with these files, and `setCallback` or not. -/
def new (files : Descriptors (Holder κ)) (func : Bool) : Acceptor κ :=
  let (listenfd_, files) := files.opened .listen
  let (nullfd_, files) := files.opened .null
  ⟨files, [], listenfd_, nullfd_, func, .out, [], [], []⟩

/-- `accept`, for a descriptor that is to be a `holder`. -/
def accept (s : Acceptor κ) (holder : κ → Holder κ) : Except Errno (ℤ × κ × Acceptor κ) :=
  match s.files.file s.listenfd_ with
  | some .listen =>
    match s.files.lowest with
    | none => .error .EMFILE
    | some fd =>
      match s.backlog with
      | [] => .error .EAGAIN
      | c :: backlog => .ok (fd, c, { s with files := s.files.assign fd (some (holder c)), backlog := backlog })
  | _ => .error .EBADF

/-- `close` -/
def shut (s : Acceptor κ) (fd : ℤ) : Acceptor κ :=
  { s with files := s.files.close fd, closed := s.closed ++ [(fd, s.files.file fd)] }

/-- `handleRead` up to the calls for `EMFILE`. `func` moves the socket on; without it, it is closed
at the end of its block. -/
def handleRead (s : Acceptor κ) : Acceptor κ :=
  match s.accept (if s.func then .client else .refused) with
  | .ok (confd, c, s) =>
    if s.func then { s with taken := s.taken ++ [(c, some confd)] }
    else { s.shut confd with taken := s.taken ++ [(c, none)] }
  | .error .EMFILE => { s with pc := .full }
  | .error _ => s

/-- The next call for `EMFILE`. -/
def turnAway (s : Acceptor κ) : Acceptor κ :=
  match s.pc with
  | .out => s
  | .full => { s.shut s.nullfd_ with pc := .released }
  | .released =>
    match s.accept .refused with
    | .ok (fd, c, s) => { s with nullfd_ := fd, pc := .refusing, taken := s.taken ++ [(c, none)] }
    | .error _ => { s with nullfd_ := -1, pc := .refusing }
  | .refusing => { s.shut s.nullfd_ with pc := .reopening }
  | .reopening =>
    let (fd, files) := s.files.opened .null
    { s with nullfd_ := fd, files := files, pc := .out }

end Acceptor

variable {κ : Type}

/-- The thread of an acceptor, among its clients and the other threads. -/
def acceptor : System (Acceptor κ) (AcceptEvent κ) Fault where
  guard s
    | .arrive _ | .opens => True
    | .handleRead => s.pc = .out ∧ s.backlog ≠ []
    | .turnAway => s.pc ≠ .out
    | .closes fd => (s.files.file fd).any Holder.isOther = true
    | .destroy fd => (s.files.file fd).any Holder.isClient = true
  step s
    | .arrive c => .ok { s with backlog := s.backlog ++ [c], arrived := s.arrived ++ [c] }
    | .handleRead => .ok s.handleRead
    | .turnAway => .ok s.turnAway
    | .opens => .ok { s with files := (s.files.opened .other).2 }
    | .closes fd | .destroy fd => .ok { s with files := s.files.close fd }

instance (s : Acceptor κ) : (e : AcceptEvent κ) → Decidable (acceptor.guard s e)
  | .arrive _ | .opens => inferInstanceAs (Decidable True)
  | .handleRead =>
    decidable_of_iff (s.pc = .out ∧ s.backlog.isEmpty = false)
      (and_congr_right fun _ => by rw [← List.isEmpty_eq_false_iff])
  | .turnAway => inferInstanceAs (Decidable (_ ≠ _))
  | .closes _ | .destroy _ => inferInstanceAs (Decidable (_ = _))

namespace Acceptor

variable {s t : Acceptor κ} {holder : κ → Holder κ}

/-- What `accept` can do. -/
theorem accept_cases (s : Acceptor κ) (holder : κ → Holder κ) :
    (∃ fd c backlog, s.files.file s.listenfd_ = some .listen ∧ s.files.lowest = some fd ∧
      s.backlog = c :: backlog ∧ s.accept holder =
        .ok (fd, c, { s with files := s.files.assign fd (some (holder c)), backlog := backlog })) ∨
    ∃ e, s.accept holder = .error e ∧ (e = .EMFILE ∧ s.files.lowest = none ∨
      e ≠ .EMFILE ∧ (s.files.file s.listenfd_ = some .listen → s.backlog = [])) := by
  unfold accept
  split
  · next hlisten =>
    cases hfree : s.files.lowest with
    | none => exact .inr ⟨_, rfl, .inl ⟨rfl, rfl⟩⟩
    | some fd =>
      cases hwait : s.backlog with
      | nil => exact .inr ⟨_, rfl, .inr ⟨Errno.noConfusion, fun _ => rfl⟩⟩
      | cons c backlog => exact .inl ⟨fd, c, backlog, hlisten, rfl, rfl, rfl⟩
  · next hlisten => exact .inr ⟨_, rfl, .inr ⟨Errno.noConfusion, fun h => absurd h hlisten⟩⟩

/-- What an event can make of `s`. -/
inductive Moved (s : Acceptor κ) : AcceptEvent κ → Acceptor κ → Prop
  | arrive (c : κ) :
      Moved s (.arrive c) { s with backlog := s.backlog ++ [c], arrived := s.arrived ++ [c] }
  /-- A client is given to `func`. -/
  | connect {fd : ℤ} {c : κ} {backlog : List κ} (hpc : s.pc = .out) (hlowest : s.files.lowest = some fd)
      (hwait : s.backlog = c :: backlog) (hfunc : s.func = true) :
      Moved s .handleRead { s with
        files := s.files.assign fd (some (.client c))
        backlog := backlog
        taken := s.taken ++ [(c, some fd)] }
  /-- Without `func`. -/
  | drop {files : Descriptors (Holder κ)} {fd : ℤ} {c : κ} {backlog : List κ} (hpc : s.pc = .out)
      (hlowest : s.files.lowest = some fd) (hfiles : files.file = s.files.file) (hlimit : files.limit = s.files.limit)
      (hwait : s.backlog = c :: backlog) (hfunc : s.func = false) :
      Moved s .handleRead { s with
        files := files
        backlog := backlog
        taken := s.taken ++ [(c, none)]
        closed := s.closed ++ [(fd, some (.refused c))] }
  | emfile (hpc : s.pc = .out) (hwait : s.backlog ≠ []) (hlowest : s.files.lowest = none) :
      Moved s .handleRead { s with pc := .full }
  | vain (hpc : s.pc = .out) (hlisten : s.files.file s.listenfd_ ≠ some .listen) : Moved s .handleRead s
  | release (hpc : s.pc = .full) : Moved s .turnAway { s.shut s.nullfd_ with pc := .released }
  | refuse {fd : ℤ} {c : κ} {backlog : List κ} (hpc : s.pc = .released) (hlowest : s.files.lowest = some fd)
      (hwait : s.backlog = c :: backlog) :
      Moved s .turnAway { s with
        files := s.files.assign fd (some (.refused c))
        backlog := backlog
        nullfd_ := fd
        pc := .refusing
        taken := s.taken ++ [(c, none)] }
  | unable (hpc : s.pc = .released)
      (hnone : s.files.file s.listenfd_ = some .listen → s.backlog ≠ [] → s.files.lowest = none) :
      Moved s .turnAway { s with nullfd_ := -1, pc := .refusing }
  | shut (hpc : s.pc = .refusing) : Moved s .turnAway { s.shut s.nullfd_ with pc := .reopening }
  | reopen {fd : ℤ} (hpc : s.pc = .reopening) (hlowest : s.files.lowest = some fd) :
      Moved s .turnAway { s with files := s.files.assign fd (some .null), nullfd_ := fd, pc := .out }
  | lose (hpc : s.pc = .reopening) (hlowest : s.files.lowest = none) :
      Moved s .turnAway { s with nullfd_ := -1, pc := .out }
  | opens {fd : ℤ} (hlowest : s.files.lowest = some fd) :
      Moved s .opens { s with files := s.files.assign fd (some .other) }
  | opensNone (hlowest : s.files.lowest = none) : Moved s .opens s
  | closes {fd : ℤ} (hfile : s.files.file fd = some .other) :
      Moved s (.closes fd) { s with files := s.files.close fd }
  | destroy {fd : ℤ} {c : κ} (hfile : s.files.file fd = some (.client c)) :
      Moved s (.destroy fd) { s with files := s.files.close fd }

theorem handleRead_moved (hpc : s.pc = .out) (hwait : s.backlog ≠ []) : s.Moved .handleRead s.handleRead := by
  unfold handleRead
  by_cases hfunc : s.func = true
  · rw [if_pos hfunc]
    rcases s.accept_cases .client with ⟨fd, c, backlog, -, hlowest, hback, haccept⟩ |
      ⟨e, haccept, ⟨rfl, hnone⟩ | ⟨hne, hempty⟩⟩
    · rw [haccept]
      dsimp only
      rw [if_pos hfunc]
      exact .connect hpc hlowest hback hfunc
    · rw [haccept]
      exact .emfile hpc hwait hnone
    · have hvain : s.Moved .handleRead s := .vain hpc fun hlisten => hwait (hempty hlisten)
      rw [haccept]
      cases e with
      | EMFILE => exact absurd rfl hne
      | EBADF => exact hvain
      | EAGAIN => exact hvain
  · rw [if_neg hfunc]
    rcases s.accept_cases .refused with ⟨fd, c, backlog, -, hlowest, hback, haccept⟩ |
      ⟨e, haccept, ⟨rfl, hnone⟩ | ⟨hne, hempty⟩⟩
    · rw [haccept]
      dsimp only
      rw [if_neg hfunc]
      obtain ⟨h0, hlt, hfree, -⟩ := Descriptors.lowest_eq_some hlowest
      have hfile : ((s.files.assign fd (some (.refused c))).close fd).file = s.files.file := by
        rw [Descriptors.close_file, Descriptors.assign_file ⟨h0, hlt⟩, Function.update_idem,
          Function.update_eq_self_iff]
        exact hfree.symm
      have hholder : (s.files.assign fd (some (.refused c))).file fd = some (.refused c) := by
        rw [Descriptors.assign_file ⟨h0, hlt⟩, Function.update_self]
      unfold Acceptor.shut
      dsimp only
      rw [hholder]
      exact .drop hpc hlowest hfile (by simp) hback (Bool.eq_false_iff.mpr hfunc)
    · rw [haccept]
      exact .emfile hpc hwait hnone
    · have hvain : s.Moved .handleRead s := .vain hpc fun hlisten => hwait (hempty hlisten)
      rw [haccept]
      cases e with
      | EMFILE => exact absurd rfl hne
      | EBADF => exact hvain
      | EAGAIN => exact hvain

theorem turnAway_moved (hpc : s.pc ≠ .out) : s.Moved .turnAway s.turnAway := by
  unfold turnAway
  cases h : s.pc with
  | out => exact absurd h hpc
  | full => exact .release h
  | released =>
    dsimp only
    rcases s.accept_cases .refused with ⟨fd, c, backlog, -, hlowest, hback, haccept⟩ | ⟨e, haccept, hfail⟩
    · rw [haccept]
      exact .refuse h hlowest hback
    · rw [haccept]
      refine .unable h fun hlisten hwait => ?_
      rcases hfail with ⟨-, hnone⟩ | ⟨-, hempty⟩
      · exact hnone
      · exact absurd (hempty hlisten) hwait
  | refusing => exact .shut h
  | reopening =>
    dsimp only
    cases hlowest : s.files.lowest with
    | some fd =>
      unfold Descriptors.opened
      rw [hlowest]
      exact .reopen h hlowest
    | none =>
      unfold Descriptors.opened
      rw [hlowest]
      exact .lose h hlowest

theorem acceptor_moved {e : AcceptEvent κ} (hg : acceptor.guard s e) (hs : acceptor.step s e = .ok t) :
    s.Moved e t := by
  unfold acceptor at hs
  cases e with
  | arrive c =>
    cases hs
    exact .arrive c
  | handleRead =>
    cases hs
    exact handleRead_moved hg.1 hg.2
  | turnAway =>
    cases hs
    exact turnAway_moved hg
  | opens =>
    cases hs
    cases hlowest : s.files.lowest with
    | some fd =>
      unfold Descriptors.opened
      rw [hlowest]
      exact .opens hlowest
    | none =>
      unfold Descriptors.opened
      rw [hlowest]
      exact .opensNone hlowest
  | closes fd =>
    cases hs
    obtain ⟨k, hk, hkind⟩ := (Option.any_eq_true _ _).mp hg
    cases k with
    | other => exact .closes hk
    | _ => cases hkind
  | destroy fd =>
    cases hs
    obtain ⟨k, hk, hkind⟩ := (Option.any_eq_true _ _).mp hg
    cases k with
    | client c => exact .destroy hk
    | _ => cases hkind

/-! ### Who closes what -/

/-- Every descriptor is in the hands of the one it was opened for. -/
structure Owns (s : Acceptor κ) : Prop where
  listening : s.listenfd_ = -1 ∨ s.files.file s.listenfd_ = some .listen
  one_listener : ∀ fd, s.files.file fd = some .listen → fd = s.listenfd_
  spare : s.nullfd_ = -1 ∨ (∃ h, s.files.file s.nullfd_ = some h ∧ s.pc.keeps h = true) ∨ s.pc = .released ∨
    s.pc = .reopening
  own : ∀ fd h, s.files.file fd = some h → h.own = true → fd = s.nullfd_ ∧ s.pc.keeps h = true
  connected : ∀ fd c, s.files.file fd = some (.client c) → (c, some fd) ∈ s.taken
  order : s.taken.map Prod.fst ++ s.backlog = s.arrived
  closed : ∀ x ∈ s.closed, x.1 = -1 ∨ ∃ h, x.2 = some h ∧ h.own = true

theorem keeps_own {pc : AcceptPc} {h : Holder κ} (hk : pc.keeps h = true) : h.own = true := by
  cases pc <;> cases h <;> first | rfl | cases hk

/-- Another thread opens or closes `fd`, or a connection is destroyed. -/
theorem Owns.update (h : s.Owns) {files : Descriptors (Holder κ)} (fd : ℤ) {o : Option (Holder κ)}
    (hfiles : files.file = Function.update s.files.file fd o) (ho : o = none ∨ o = some .other)
    (hold : ∀ k, s.files.file fd = some k → k.own = false ∧ k ≠ .listen) : Owns { s with files := files } := by
  have hkept : ∀ n k, s.files.file n = some k → k.own = true ∨ k = .listen → files.file n = some k := by
    intro n k hn hk
    rw [hfiles, Function.update_of_ne, hn]
    rintro rfl
    obtain ⟨hown, hlisten⟩ := hold k hn
    rcases hk with hk | hk
    · rw [hown] at hk
      cases hk
    · exact hlisten hk
  have hback : ∀ n k, files.file n = some k → k = .other ∨ s.files.file n = some k := by
    intro n k hn
    rw [hfiles] at hn
    by_cases hnf : n = fd
    · rw [hnf, Function.update_self] at hn
      rcases ho with rfl | rfl
      · cases hn
      · exact .inl (Option.some.inj hn).symm
    · rw [Function.update_of_ne hnf] at hn
      exact .inr hn
  constructor
  case listening => exact h.listening.imp_right fun hl => hkept _ _ hl (.inr rfl)
  case one_listener =>
    intro n hn
    rcases hback n _ hn with hk | hn
    · cases hk
    · exact h.one_listener n hn
  case spare =>
    refine h.spare.imp_right (Or.imp_left ?_)
    rintro ⟨k, hk, hkeeps⟩
    exact ⟨k, hkept _ _ hk (.inl (keeps_own hkeeps)), hkeeps⟩
  case own =>
    intro n k hn hk
    rcases hback n k hn with rfl | hn
    · cases hk
    · exact h.own n k hn hk
  case connected =>
    intro n c hn
    rcases hback n _ hn with hk | hn
    · cases hk
    · exact h.connected n c hn
  case order => exact h.order
  case closed => exact h.closed

/-- A client is given to `func`. -/
theorem Owns.taken_connected (h : s.Owns) {fd : ℤ} {c : κ} {backlog : List κ} (hlowest : s.files.lowest = some fd)
    (hwait : s.backlog = c :: backlog) : Owns { s with
      files := s.files.assign fd (some (.client c))
      backlog := backlog
      taken := s.taken ++ [(c, some fd)] } := by
  obtain ⟨h0, hlt, hfree, -⟩ := Descriptors.lowest_eq_some hlowest
  have hfile := Descriptors.assign_file (o := some (.client c)) ⟨h0, hlt⟩
  have hkept : ∀ n k, s.files.file n = some k → (s.files.assign fd (some (.client c))).file n = some k := by
    intro n k hn
    rw [hfile, Function.update_of_ne, hn]
    rintro rfl
    rw [hfree] at hn
    cases hn
  have hback : ∀ n k, (s.files.assign fd (some (.client c))).file n = some k →
      n = fd ∧ k = .client c ∨ s.files.file n = some k := by
    intro n k hn
    rw [hfile] at hn
    by_cases hnf : n = fd
    · rw [hnf, Function.update_self, Option.some.injEq] at hn
      exact .inl ⟨hnf, hn.symm⟩
    · rw [Function.update_of_ne hnf] at hn
      exact .inr hn
  constructor
  case listening => exact h.listening.imp_right (hkept _ _)
  case one_listener =>
    intro n hn
    rcases hback n _ hn with ⟨-, hk⟩ | hn
    · cases hk
    · exact h.one_listener n hn
  case spare =>
    refine h.spare.imp_right (Or.imp_left ?_)
    rintro ⟨k, hk, hkeeps⟩
    exact ⟨k, hkept _ _ hk, hkeeps⟩
  case own =>
    intro n k hn hk
    rcases hback n k hn with ⟨-, rfl⟩ | hn
    · cases hk
    · exact h.own n k hn hk
  case connected =>
    intro n d hn
    rcases hback n _ hn with ⟨rfl, hk⟩ | hn
    · cases hk
      exact List.mem_append_right _ List.mem_cons_self
    · exact List.mem_append_left _ (h.connected n d hn)
  case order =>
    show (s.taken ++ [(c, some fd)]).map Prod.fst ++ backlog = s.arrived
    rw [← h.order, hwait, List.map_append, List.append_assoc]
    rfl
  case closed => exact h.closed

/-- The books change. -/
theorem Owns.books (h : s.Owns) {backlog : List κ} {taken : List (κ × Option ℤ)}
    {closed : List (ℤ × Option (Holder κ))} (htaken : s.taken <+: taken)
    (horder : taken.map Prod.fst ++ backlog = s.arrived)
    (hclosed : ∀ x ∈ closed, x.1 = -1 ∨ ∃ h, x.2 = some h ∧ h.own = true) :
    Owns { s with backlog := backlog, taken := taken, closed := closed } where
  listening := h.listening
  one_listener := h.one_listener
  spare := h.spare
  own := h.own
  connected fd c hc := htaken.subset (h.connected fd c hc)
  order := horder
  closed := hclosed

/-- The acceptor opens or closes `fd`, which it keeps in `nullfd_`. -/
theorem Owns.shift (h : s.Owns) {files : Descriptors (Holder κ)} (fd nullfd : ℤ) {o : Option (Holder κ)}
    (pc : AcceptPc)
    (hfiles : files.file = Function.update s.files.file fd o)
    (hold : ∀ k, s.files.file fd = some k → k.own = true)
    (hrest : ∀ n k, n ≠ fd → s.files.file n = some k → k.own = false)
    (hnew : ∀ k, o = some k → fd = nullfd ∧ pc.keeps k = true)
    (hspare : nullfd = -1 ∨ o.isSome = true ∨ pc = .released ∨ pc = .reopening) :
    Owns { s with files := files, nullfd_ := nullfd, pc := pc } := by
  have hkept : ∀ n k, s.files.file n = some k → k.own = false → files.file n = some k := by
    intro n k hn hk
    rw [hfiles, Function.update_of_ne, hn]
    rintro rfl
    rw [hold k hn] at hk
    cases hk
  have hback : ∀ n k, files.file n = some k →
      (n = nullfd ∧ pc.keeps k = true) ∨ (s.files.file n = some k ∧ k.own = false) := by
    intro n k hn
    rw [hfiles] at hn
    by_cases hnf : n = fd
    · rw [hnf, Function.update_self] at hn
      obtain ⟨hfd, hkeeps⟩ := hnew k hn
      exact .inl ⟨hnf.trans hfd, hkeeps⟩
    · rw [Function.update_of_ne hnf] at hn
      exact .inr ⟨hn, hrest n k hnf hn⟩
  constructor
  case listening => exact h.listening.imp_right fun hl => hkept _ _ hl rfl
  case one_listener =>
    intro n hn
    rcases hback n _ hn with ⟨-, hk⟩ | ⟨hn, -⟩
    · cases keeps_own hk
    · exact h.one_listener n hn
  case spare =>
    refine hspare.imp_right (Or.imp_left fun hsome => ?_)
    obtain ⟨k, hk⟩ := Option.isSome_iff_exists.mp hsome
    obtain ⟨rfl, hkeeps⟩ := hnew k hk
    exact ⟨k, by rw [hfiles, Function.update_self, hk], hkeeps⟩
  case own =>
    intro n k hn hk
    rcases hback n k hn with hkept | ⟨-, hk'⟩
    · exact hkept
    · rw [hk] at hk'
      cases hk'
  case connected =>
    intro n c hn
    rcases hback n _ hn with ⟨-, hk⟩ | ⟨hn, -⟩
    · cases keeps_own hk
    · exact h.connected n c hn
  case order => exact h.order
  case closed => exact h.closed

/-- What the acceptor closes is its own. -/
theorem Owns.shut (h : s.Owns) {pc : AcceptPc} (hpc : pc = .released ∨ pc = .reopening)
    (hkeeps : s.pc ≠ .released ∧ s.pc ≠ .reopening) : Owns { s.shut s.nullfd_ with pc := pc } := by
  have hspare : s.nullfd_ = -1 ∨ ∃ k, s.files.file s.nullfd_ = some k ∧ k.own = true := by
    rcases h.spare with hnone | ⟨k, hk, hpck⟩ | hpc | hpc
    · exact .inl hnone
    · exact .inr ⟨k, hk, keeps_own hpck⟩
    · exact absurd hpc hkeeps.1
    · exact absurd hpc hkeeps.2
  have hbad : s.files.file (-1) = none := Descriptors.file_eq_none fun hin => absurd hin.1 (by decide)
  have hshift : Owns { s with files := s.files.close s.nullfd_, pc := pc } := by
    refine h.shift _ s.nullfd_ _ Descriptors.close_file ?_ ?_ ?_ (.inr (.inr hpc))
    · intro k hk
      rcases hspare with hnone | ⟨k', hk', hown⟩
      · rw [hnone, hbad] at hk
        cases hk
      · rw [hk, Option.some.injEq] at hk'
        exact hk' ▸ hown
    · intro n k hne hn
      by_contra hown
      exact hne (h.own n k hn (by simpa using hown)).1
    · intro k hk
      cases hk
  refine hshift.books List.prefix_rfl h.order ?_
  intro x hx
  rcases List.mem_append.mp hx with hx | hx
  · exact h.closed x hx
  · rw [List.mem_singleton.mp hx]
    exact hspare

/-- Nothing is kept where the spare descriptor was given up. -/
theorem Owns.nothing (h : s.Owns) (hpc : s.pc = .released ∨ s.pc = .reopening) {n : ℤ} {k : Holder κ}
    (hn : s.files.file n = some k) : k.own = false := by
  by_contra hown
  have hkeeps := (h.own n k hn (by simpa using hown)).2
  rcases hpc with hpc | hpc <;> rw [hpc] at hkeeps <;> cases k <;> cases hkeeps

theorem Owns.step (h : s.Owns) {e : AcceptEvent κ} (hm : s.Moved e t) : t.Owns := by
  have hfree : ∀ {fd k}, s.files.lowest = some fd → s.files.file fd = some k → False := by
    intro fd k hlowest hk
    rw [(Descriptors.lowest_eq_some hlowest).2.2.1] at hk
    cases hk
  have hnone : s.files.file (-1) = none := Descriptors.file_eq_none fun hin => absurd hin.1 (by decide)
  have hbad : Function.update s.files.file (-1) none = s.files.file := by
    rw [Function.update_eq_self_iff]
    exact hnone.symm
  have hassign : ∀ {fd o}, s.files.lowest = some fd →
      (s.files.assign fd o).file = Function.update s.files.file fd o := by
    intro fd o hlowest
    obtain ⟨h0, hlt, -⟩ := Descriptors.lowest_eq_some hlowest
    exact Descriptors.assign_file ⟨h0, hlt⟩
  cases hm with
  | arrive c =>
    exact { h with order := by rw [← h.order, List.append_assoc] }
  | connect _ hlowest hwait => exact h.taken_connected hlowest hwait
  | drop _ _ hfiles _ hwait =>
    have hsame : Owns { s with files := _ } :=
      h.update (-1) (o := none) (by rw [hfiles, hbad]) (.inl rfl) fun k hk => by rw [hnone] at hk; cases hk
    refine hsame.books (List.prefix_append _ _) ?_ ?_
    · show (s.taken ++ [_]).map Prod.fst ++ _ = s.arrived
      rw [← h.order, hwait, List.map_append, List.append_assoc]
      rfl
    · intro x hx
      rcases List.mem_append.mp hx with hx | hx
      · exact h.closed x hx
      · rw [List.mem_singleton.mp hx]
        exact .inr ⟨_, rfl, rfl⟩
  | emfile hpc =>
    have hsame : ∀ k : Holder κ, s.pc.keeps k = AcceptPc.full.keeps k := by
      intro k
      rw [hpc]
      cases k <;> rfl
    refine { h with spare := ?_, own := ?_ }
    · rcases h.spare with hno | ⟨k, hk, hkeeps⟩ | hpc' | hpc'
      · exact .inl hno
      · exact .inr (.inl ⟨k, hk, hsame k ▸ hkeeps⟩)
      · rw [hpc] at hpc'
        cases hpc'
      · rw [hpc] at hpc'
        cases hpc'
    · intro fd k hk hown
      obtain ⟨hfd, hkeeps⟩ := h.own fd k hk hown
      exact ⟨hfd, hsame k ▸ hkeeps⟩
  | vain => exact h
  | release hpc => exact h.shut (.inl rfl) (by simp [hpc])
  | @refuse fd c backlog hpc hlowest hwait =>
    have hshift : Owns { s with
        files := s.files.assign fd (some (.refused c)), nullfd_ := fd, pc := .refusing } := by
      refine h.shift _ _ _ (hassign hlowest) (fun k hk => (hfree hlowest hk).elim)
        (fun n k _ hn => h.nothing (.inl hpc) hn) (fun k hk => ?_) (.inr (.inl rfl))
      cases hk
      exact ⟨rfl, rfl⟩
    refine hshift.books (List.prefix_append _ _) ?_ h.closed
    show (s.taken ++ [_]).map Prod.fst ++ _ = s.arrived
    rw [← h.order, hwait, List.map_append, List.append_assoc]
    rfl
  | unable hpc =>
    exact h.shift (-1) (-1) .refusing (o := none) hbad.symm
      (fun k hk => by rw [hnone] at hk; cases hk) (fun n k _ hn => h.nothing (.inl hpc) hn)
      (fun k hk => by cases hk) (.inl rfl)
  | shut hpc => exact h.shut (.inr rfl) (by simp [hpc])
  | reopen hpc hlowest =>
    refine h.shift _ _ _ (hassign hlowest) (fun k hk => (hfree hlowest hk).elim)
      (fun n k _ hn => h.nothing (.inr hpc) hn) (fun k hk => ?_) (.inr (.inl rfl))
    cases hk
    exact ⟨rfl, rfl⟩
  | lose hpc =>
    exact h.shift (-1) (-1) .out (o := none) hbad.symm
      (fun k hk => by rw [hnone] at hk; cases hk) (fun n k _ hn => h.nothing (.inr hpc) hn)
      (fun k hk => by cases hk) (.inl rfl)
  | opens hlowest =>
    exact h.update _ (hassign hlowest) (.inr rfl) fun k hk => (hfree hlowest hk).elim
  | opensNone => exact h
  | closes hfile | destroy hfile =>
    refine h.update _ Descriptors.close_file (.inl rfl) fun k hk => ?_
    rw [hfile, Option.some.injEq] at hk
    subst hk
    exact ⟨rfl, fun hk => by cases hk⟩

theorem new_owns {files : Descriptors (Holder κ)} (hfiles : ∀ fd h, files.file fd = some h → h = .other)
    (func : Bool) : (new files func).Owns := by
  have hback : ∀ fd h, (new files func).files.file fd = some h →
      (fd = (new files func).nullfd_ ∧ h = .null) ∨ (fd = (new files func).listenfd_ ∧ h = .listen) ∨
        h = .other := by
    intro fd h hfd
    rcases Descriptors.opened_back hfd with hnull | hfd
    · exact .inl hnull
    · rcases Descriptors.opened_back hfd with hlisten | hfd
      · exact .inr (.inl hlisten)
      · exact .inr (.inr (hfiles fd h hfd))
  constructor
  case listening => exact (files.opened_self .listen).imp_right Descriptors.opened_keeps
  case one_listener =>
    intro fd hfd
    rcases hback fd _ hfd with ⟨-, hk⟩ | ⟨hfd, -⟩ | hk
    · cases hk
    · exact hfd
    · cases hk
  case spare => exact (Descriptors.opened_self _ _).imp_right fun hk => .inl ⟨_, hk, rfl⟩
  case own =>
    intro fd h hfd hown
    rcases hback fd h hfd with ⟨hnull, rfl⟩ | ⟨-, rfl⟩ | rfl
    · exact ⟨hnull, rfl⟩
    · cases hown
    · cases hown
  case connected =>
    intro fd c hfd
    rcases hback fd _ hfd with ⟨-, hk⟩ | ⟨-, hk⟩ | hk <;> cases hk
  case order => rfl
  case closed => exact fun x hx => absurd hx List.not_mem_nil

end Acceptor

open Acceptor

/-- **The acceptor closes only what it holds, and what it holds is in `nullfd_`**, in every interleaving with
other threads; every client is taken once, in order. -/
theorem acceptor_owns {files : Descriptors (Holder κ)} {func : Bool} {es : List (AcceptEvent κ)} {s : Acceptor κ}
    (hfiles : ∀ fd h, files.file fd = some h → h = .other) (h : acceptor.Run (.new files func) es s) : s.Owns :=
  h.invariant (fun hi hg hs => hi.step (acceptor_moved hg hs)) (new_owns hfiles func)

theorem empty_other (limit : ℕ) :
    ∀ fd h, (Descriptors.empty limit : Descriptors (Holder κ)).file fd = some h → h = .other := by
  intro fd h hfd
  cases hfd

/-- Three descriptors: the first client is connected, and the second is turned away. -/
def secondClient : List (AcceptEvent ℕ) :=
  [.arrive 5, .handleRead, .arrive 6, .handleRead, .turnAway, .turnAway, .turnAway, .turnAway]

theorem secondClient_run : ∃ s, acceptor.Run (.new (.empty 3) true) secondClient s ∧
    s.taken = [(5, some 2), (6, none)] ∧ s.pc = .out := by
  have hrun : (acceptor.exec (.new (.empty 3) true) secondClient).map (fun s => (s.taken, s.pc)) =
      some ([(5, some 2), (6, none)], .out) := by
    decide +kernel
  obtain ⟨s, hs, hview⟩ := acceptor.exec_map_iff.mp hrun
  obtain ⟨htaken, hpc⟩ := Prod.mk.inj hview
  exact ⟨s, hs, htaken, hpc⟩

theorem acceptor_owns_secondClient : ∃ s, acceptor.Run (.new (.empty 3) true) secondClient s ∧ s.Owns := by
  obtain ⟨s, hs, -⟩ := secondClient_run
  exact ⟨s, hs, acceptor_owns (empty_other 3) hs⟩

namespace Acceptor

variable {s t : Acceptor κ} {e : AcceptEvent κ}

/-! ### The connections -/

/-- What is not the acceptor's own stays open until its holder closes it. -/
theorem Moved.kept (hm : s.Moved e t) (h : s.Owns) {fd : ℤ} {k : Holder κ} (hk : k.own = false)
    (hcloses : k.isOther = true → e ≠ .closes fd) (hdestroy : k.isClient = true → e ≠ .destroy fd)
    (hfd : s.files.file fd = some k) : t.files.file fd = some k := by
  have hassign : ∀ {n o}, s.files.lowest = some n → (s.files.assign n o).file fd = some k := by
    intro n o hlowest
    obtain ⟨h0, hlt, hfree, -⟩ := Descriptors.lowest_eq_some hlowest
    rw [Descriptors.assign_file ⟨h0, hlt⟩, Function.update_of_ne, hfd]
    rintro rfl
    rw [hfd] at hfree
    cases hfree
  have hclose : ∀ {n}, n ≠ fd → (s.files.close n).file fd = some k := by
    intro n hn
    rw [Descriptors.close_file, Function.update_of_ne hn.symm, hfd]
  have hspare : s.pc ≠ .released → s.pc ≠ .reopening → s.nullfd_ ≠ fd := by
    rintro h1 h2 rfl
    rcases h.spare with hno | ⟨k', hk', hkeeps⟩ | hpc | hpc
    · rw [hno, Descriptors.file_eq_none fun hin => absurd hin.1 (by decide)] at hfd
      cases hfd
    · rw [hfd, Option.some.injEq] at hk'
      rw [hk', keeps_own hkeeps] at hk
      cases hk
    · exact h1 hpc
    · exact h2 hpc
  cases hm with
  | connect _ hlowest => exact hassign hlowest
  | refuse _ hlowest => exact hassign hlowest
  | reopen _ hlowest => exact hassign hlowest
  | opens hlowest => exact hassign hlowest
  | drop _ _ hfiles =>
    show (_ : Descriptors (Holder κ)).file fd = _
    rw [hfiles]
    exact hfd
  | release hpc => exact hclose (hspare (by simp [hpc]) (by simp [hpc]))
  | shut hpc => exact hclose (hspare (by simp [hpc]) (by simp [hpc]))
  | closes hfile =>
    refine hclose ?_
    rintro rfl
    rw [hfd, Option.some.injEq] at hfile
    exact hcloses (by rw [hfile]; rfl) rfl
  | destroy hfile =>
    refine hclose ?_
    rintro rfl
    rw [hfd, Option.some.injEq] at hfile
    exact hdestroy (by rw [hfile]; rfl) rfl
  | arrive | emfile | vain | unable | lose | opensNone => exact hfd

/-- Every connection that `func` was given has a descriptor of its own. -/
structure Apart (s : Acceptor κ) : Prop where
  opened : ∀ c fd, (c, some fd) ∈ s.taken → s.files.file fd = some (.client c)
  nodup : (s.taken.filterMap Prod.snd).Nodup

theorem Apart.step (h : s.Apart) (ho : s.Owns) (hm : s.Moved e t) (he : ∀ fd, e ≠ .destroy fd) : t.Apart := by
  have hkept : ∀ c fd, (c, some fd) ∈ s.taken → t.files.file fd = some (.client c) := fun c fd hin =>
    hm.kept ho rfl Bool.noConfusion (fun _ => he fd) (h.opened c fd hin)
  cases hm with
  | @connect fd c backlog _ hlowest =>
    obtain ⟨h0, hlt, hfree, -⟩ := Descriptors.lowest_eq_some hlowest
    constructor
    · intro d n hin
      rcases List.mem_append.mp hin with hin | hin
      · exact hkept d n hin
      · cases List.mem_singleton.mp hin
        show (s.files.assign fd (some (.client c))).file fd = some (.client c)
        rw [Descriptors.assign_file ⟨h0, hlt⟩, Function.update_self]
    · show ((s.taken ++ [(c, some fd)]).filterMap Prod.snd).Nodup
      rw [List.filterMap_append]
      refine List.nodup_append.mpr ⟨h.nodup, List.nodup_singleton _, ?_⟩
      intro n hn m hm
      obtain rfl : m = fd := List.mem_singleton.mp hm
      rintro rfl
      obtain ⟨⟨d, o⟩, hin, ho⟩ := List.mem_filterMap.mp hn
      obtain rfl : o = some n := ho
      rw [h.opened d n hin] at hfree
      cases hfree
  | @drop files fd c backlog | @refuse fd c backlog =>
    constructor
    · intro d n hin
      rcases List.mem_append.mp hin with hin | hin
      · exact hkept d n hin
      · cases List.mem_singleton.mp hin
    · show ((s.taken ++ [(c, none)]).filterMap Prod.snd).Nodup
      rw [List.filterMap_append]
      exact (List.append_nil _).symm ▸ h.nodup
  | destroy => exact absurd rfl (he _)
  | arrive | emfile | vain | release | unable | shut | reopen | lose | opens | opensNone | closes =>
    exact ⟨hkept, h.nodup⟩

end Acceptor

/-- The descriptors of the connections, and then others. -/
def Acceptor.fd (s : Acceptor κ) (k : ℕ) : ℤ := (s.taken.filterMap Prod.snd).getD k (s.files.limit + k)

theorem Acceptor.Apart.injective {s : Acceptor κ} (h : s.Apart) : Function.Injective s.fd := by
  have hget : ∀ k, (k < (s.taken.filterMap Prod.snd).length ∧ (s.taken.filterMap Prod.snd)[k]? = some (s.fd k) ∧
      s.fd k < s.files.limit) ∨ ((s.taken.filterMap Prod.snd).length ≤ k ∧ s.fd k = s.files.limit + k) := by
    intro k
    unfold Acceptor.fd
    rw [List.getD_eq_getElem?_getD]
    rcases Nat.lt_or_ge k (s.taken.filterMap Prod.snd).length with hlt | hge
    · have hsome := List.getElem?_eq_getElem hlt
      obtain ⟨⟨c, o⟩, hin, ho⟩ := List.mem_filterMap.mp (List.getElem_mem hlt)
      obtain rfl : o = some _ := ho
      have hopen := h.opened c _ hin
      rw [hsome]
      have hinside := s.files.inside (Option.isSome_of_eq_some hopen)
      exact .inl ⟨hlt, rfl, hinside.2⟩
    · rw [List.getElem?_eq_none hge]
      exact .inr ⟨hge, rfl⟩
  intro k m hkm
  rcases hget k with ⟨hk, hk', hklt⟩ | ⟨hk, hk'⟩ <;> rcases hget m with ⟨hm, hm', hmlt⟩ | ⟨hm, hm'⟩
  · exact (List.getElem?_inj hk h.nodup).mp (by rw [hk', hm', hkm])
  · omega
  · omega
  · omega

/-- **Every connection is given to `func` with a descriptor that no other has** while none of them is
destroyed: they are the first of an injective sequence, as a server numbers its connections. -/
theorem connections_apart {files : Descriptors (Holder κ)} {func : Bool} {es : List (AcceptEvent κ)} {s : Acceptor κ}
    (hfiles : ∀ fd h, files.file fd = some h → h = .other) (h : acceptor.Run (.new files func) es s)
    (hes : ∀ fd, .destroy fd ∉ es) : s.Apart ∧ Function.Injective s.fd := by
  have hboth : s.Owns ∧ s.Apart := by
    refine h.history (P := fun es s => (∀ fd, .destroy fd ∉ es) → s.Owns ∧ s.Apart) ?_ ?_ hes
    · exact fun _ => ⟨new_owns hfiles func, fun c fd hin => absurd hin List.not_mem_nil, List.nodup_nil⟩
    · intro es t e u _ ih hg hs hnone
      obtain ⟨ho, ha⟩ := ih fun fd hin => hnone fd (List.mem_append_left _ hin)
      have hm := acceptor_moved hg hs
      refine ⟨ho.step hm, ha.step ho hm fun fd he => ?_⟩
      exact hnone fd (List.mem_append_right _ (List.mem_singleton.mpr he.symm))
  exact ⟨hboth.2, hboth.2.injective⟩

theorem connections_apart_secondClient : ∃ s, acceptor.Run (.new (.empty 3) true) secondClient s ∧
    s.Apart ∧ Function.Injective s.fd := by
  obtain ⟨s, hs, -⟩ := secondClient_run
  exact ⟨s, hs, connections_apart (empty_other 3) hs (by simp [secondClient])⟩

end MuduoSe
