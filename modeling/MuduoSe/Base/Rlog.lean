/-
# rlog: the logger

`base/rlog.h` and `base/rlog.cc`: any number of threads `ι` that log, the thread that writes the
buffers to a file, and the thread that starts the logger with `LOG_INIT` and destroys it. A critical
section of `mutex_` is one step. `cond_.wait_for` can return at any time: after a notification, after
`BUFF_WAIT_TIME`, or for no reason.

The environment chooses what is logged, when, and the time; whether an `open` of a closed stream
succeeds, and whether `LOG_INIT` can use `log_dir`; and what memory holds that was never written.
`pid_`, `log_dir` and `basename` are the same in all names of files. Levels, which no function here
reads, are left out.

The lines that a buffer has taken are numbered in the order of the critical sections; `held` is what
each buffer holds of them, and `persisted` what was given to the stream, a block for each call of
`cell_buffer::persist` that found it in order.

Key definitions: `LogRing`, `LogRing.critical`, `LogFile.decisFile`, `Rlog`, `logger`.
-/
import MuduoSe.Base.CellBuffer
import MuduoSe.Base.Timestamp
import MuduoSe.Lib.Disk
import MuduoSe.Lib.Ring

namespace MuduoSe

def MEM_USE_LIMIT : ℕ := 3 * 1024 * 1024 * 1024
def LOG_USE_LIMIT : ℕ := 1 * 1024 * 1024 * 1024
def RELOG_THRESOLD : ℕ := 5

/-! ### The ring of buffers -/

/-- The lines of a buffer that was persisted, and what was written for it. -/
structure Block where
  ids : List ℕ
  text : Bytes
  deriving DecidableEq, Repr

structure LogRing where
  one_buff_len : ℕ
  /-- The buffers by their numbers. -/
  buf : ℕ → CellBuffer
  /-- The number of the next buffer. -/
  fresh : ℕ
  buf_cnt : ℕ
  cur_buf : ℕ
  prst_buf : ℕ
  lst_lts : ℕ
  lines : List Bytes
  held : ℕ → List ℕ
  persisted : List Block

namespace LogRing

/-- The three buffers that `rlog()` makes. -/
def start (raw : ℕ → ℕ → Byte) (one_buff_len : ℕ) : LogRing where
  one_buff_len := one_buff_len
  buf p :=
    match p with
    | 1 => { CellBuffer.new (raw 1) one_buff_len with pre := 3, next := 2 }
    | 2 => { CellBuffer.new (raw 2) one_buff_len with pre := 1, next := 3 }
    | 3 => { CellBuffer.new (raw 3) one_buff_len with pre := 2, next := 1 }
    | p => CellBuffer.new (raw p) 0
  fresh := 4
  buf_cnt := 3
  cur_buf := 1
  prst_buf := 1
  lst_lts := 0
  lines := []
  held _ := []
  persisted := []

def next (r : LogRing) (p : ℕ) : ℕ := (r.buf p).next

def status (r : LogRing) (p : ℕ) : BufferStatus := (r.buf p).status

/-- The text of a line. -/
def line (r : LogRing) (k : ℕ) : Bytes := r.lines.getD k []

/-- The buffers in the order in which they will be persisted. -/
def ring (r : LogRing) : List ℕ := List.iterate r.next r.prst_buf (r.fresh - 1)

def setBuf (r : LogRing) (p : ℕ) (b : CellBuffer) : LogRing :=
  { r with buf := Function.update r.buf p b }

def setStatus (r : LogRing) (p : ℕ) (status : BufferStatus) : LogRing :=
  r.setBuf p { r.buf p with status := status }

def setNext (r : LogRing) (p q : ℕ) : LogRing := r.setBuf p { r.buf p with next := q }

def setPre (r : LogRing) (p q : ℕ) : LogRing := r.setBuf p { r.buf p with pre := q }

/-- `new cell_buffer(one_buff_len)` -/
def alloc (r : LogRing) (raw : ℕ → ℕ → Byte) : LogRing :=
  { r.setBuf r.fresh (CellBuffer.new (raw r.fresh) r.one_buff_len) with fresh := r.fresh + 1 }

/-- `cur_buf->append(log_line, len_all)`, where `log_line` is what is copied. -/
def put (r : LogRing) (log_line : Bytes) : LogRing :=
  let b := r.buf r.cur_buf
  let s := r.setBuf r.cur_buf (b.append log_line)
  if log_line.length ≤ b.availLen then
    { s with
      lines := r.lines ++ [log_line]
      held := Function.update r.held r.cur_buf (r.held r.cur_buf ++ [r.lines.length]) }
  else s

/-- A new buffer behind the current one. -/
def grow (r : LogRing) (raw : ℕ → ℕ → Byte) (next_buf : ℕ) : LogRing :=
  let new_buf := r.fresh
  let r := r.alloc raw
  let r := r.setNext new_buf next_buf
  let r := r.setNext r.cur_buf new_buf
  let r := r.setPre next_buf new_buf
  let r := r.setPre new_buf r.cur_buf
  { r with cur_buf := r.next r.cur_buf, buf_cnt := r.buf_cnt + 1 }

/-- There are as many buffers as there may be. -/
def Exhausted (r : LogRing) : Prop := MEM_USE_LIMIT < r.one_buff_len * (r.buf_cnt + 1) % 2 ^ 64

instance (r : LogRing) : Decidable r.Exhausted := inferInstanceAs (Decidable (_ < _))

/-- The current buffer has no room for the line: on to the next buffer. -/
def turnOver (r : LogRing) (raw : ℕ → ℕ → Byte) (curr_sec : ℕ) : LogRing :=
  let r := r.setStatus r.cur_buf .FULL
  let next_buf := r.next r.cur_buf
  if r.status next_buf = .FULL then
    if r.Exhausted then { r with cur_buf := next_buf, lst_lts := curr_sec }
    else r.grow raw next_buf
  else { r with cur_buf := next_buf }

/-- The critical section of `try_append`. -/
def critical (r : LogRing) (raw : ℕ → ℕ → Byte) (log_line : Bytes) (curr_sec : ℕ) : LogRing :=
  if r.status r.cur_buf = .FREE then
    if log_line.length ≤ (r.buf r.cur_buf).availLen then r.put log_line
    else
      let r := r.turnOver raw curr_sec
      if r.lst_lts = 0 then r.put log_line else r
  else { r with lst_lts := curr_sec }

/-- What the persister does under its lock when it has a buffer to persist. -/
def take (r : LogRing) : LogRing :=
  if r.status r.prst_buf = .FREE then
    let r := r.setStatus r.cur_buf .FULL
    { r with cur_buf := r.next r.cur_buf }
  else r

/-- `prst_buf->persist(fp_)`, where `beyond` is what lies behind the array. -/
def persist (r : LogRing) (beyond : Bytes) : LogRing :=
  let b := r.buf r.prst_buf
  { r.setBuf r.prst_buf b.clear with
    held := Function.update r.held r.prst_buf []
    persisted := r.persisted ++ [⟨r.held r.prst_buf, b.text beyond⟩] }

/-- `prst_buf=prst_buf->next` -/
def advance (r : LogRing) : LogRing := { r with prst_buf := r.next r.prst_buf }

end LogRing

/-! ### The log files -/

/-- `<log_dir>/<basename>.<date>.<pid>.log`, or such a name with a number behind it. -/
structure LogPath where
  date : Int × Int × Int
  number : Option ℕ
  deriving DecidableEq, Repr

/-- What `decis_file` works on; `fp_` is the stream of `disk`. -/
structure LogFile where
  env_ok : Bool
  /-- `year_`, `mon_` and `day_` -/
  date_ : Int × Int × Int
  log_cnt_ : ℕ
  disk : Disk LogPath Byte

namespace LogFile

/-- `ofstream(NULL)` is closed, and its fail bit is set. -/
def start (files : LogPath → Option Bytes) : LogFile := ⟨false, (0, 0, 0), 0, ⟨files, none, true, []⟩⟩

/-- `log_cnt_++`, if the stream is in order. -/
def count (f : LogFile) : LogFile :=
  if f.disk.failbit then f else { f with log_cnt_ := f.log_cnt_ + 1 }

/-- A file for a new date. -/
def openDate (f : LogFile) (date : Int × Int × Int) (ok : Bool) : LogFile :=
  count { f with date_ := date, disk := f.disk.openOut ⟨date, none⟩ ok }

/-- The numbers of the files `.1` to `.n` go up by one, the highest first. -/
def shift (date : Int × Int × Int) : ℕ → Disk LogPath Byte → Disk LogPath Byte
  | 0, d => d
  | n + 1, d => shift date n (d.rename ⟨date, some (n + 1)⟩ ⟨date, some (n + 2)⟩)

/-- `decis_file`, where `ok` says if an `open` of the closed stream succeeds. -/
def decisFile (f : LogFile) (date : Int × Int × Int) (ok : Bool) : LogFile :=
  if !f.env_ok then
    let disk := if f.disk.failbit then f.disk else f.disk.close
    { f with disk := disk.openNull ok }
  else if f.disk.failbit then f.openDate date ok
  else if f.date_.2.2 ≠ date.2.2 then openDate { f with disk := f.disk.close } date ok
  else if LOG_USE_LIMIT ≤ f.disk.tellp then
    let disk := shift f.date_ (f.log_cnt_ - 1) f.disk.close
    let disk := disk.rename ⟨f.date_, none⟩ ⟨f.date_, some 1⟩
    count { f with disk := disk.openOut ⟨f.date_, none⟩ ok }
  else f

end LogFile

/-! ### The threads -/

/-- A thread that logs. -/
inductive Producer
  | out
  /-- It has passed the test of `lst_lts`. -/
  | format (curr_sec : ℕ)
  /-- At the lock. -/
  | ready (curr_sec : ℕ)
  deriving DecidableEq, Repr

/-- The time that the thread has read, when it is to reset `lst_lts`. -/
def Producer.formats : Producer → Option ℕ
  | .format curr_sec => some curr_sec
  | _ => none

/-- The time that the thread has read, when it is at the lock. -/
def Producer.logs : Producer → Option ℕ
  | .ready curr_sec => some curr_sec
  | _ => none

/-- Where `rlog::persist` is. -/
inductive Persister
  /-- The thread was not created. -/
  | absent
  /-- At `while(running)`. -/
  | top
  /-- At the lock. -/
  | entering
  /-- In `wait_for`. -/
  | waiting
  /-- It has `mutex_` and is about to take a buffer. -/
  | taking
  /-- At `decis_file`. -/
  | deciding (date : Int × Int × Int)
  /-- At `prst_buf->persist(fp_)`. -/
  | writing
  /-- The buffer is cleared; at the second lock. -/
  | advancing
  | exited
  deriving DecidableEq, Repr

/-- The date that the persister has read for `decis_file`. -/
def Persister.decides : Persister → Option (Int × Int × Int)
  | .deciding date => some date
  | _ => none

/-- The life of the logger; in the end, `stored` lines had been stored when `~rlog` began. -/
inductive LogLife
  | fresh
  /-- The thread was created; `running` is still false. -/
  | created
  | alive
  | joining (stored : ℕ)
  | joined (stored : ℕ)
  | returned (stored : ℕ)
  deriving DecidableEq, Repr

/-- How many lines had been stored, while the thread is joined. -/
def LogLife.joins : LogLife → Option ℕ
  | .joining stored => some stored
  | _ => none

/-- How many lines had been stored, when the thread has been joined. -/
def LogLife.flushes : LogLife → Option ℕ
  | .joined stored => some stored
  | _ => none

structure Rlog (ι : Type) where
  ring : LogRing
  file : LogFile
  tm_ : Timestamp
  running : Bool
  life : LogLife
  persister : Persister
  thread : ι → Producer

inductive LogEvent (ι : Type)
  /-- `LOG_INIT` up to the creation of the thread; `ok` says if it can use `log_dir`. -/
  | init (ok : Bool)
  /-- `running.store(true)` -/
  | store
  /-- `try_append` reads the clock and tests `lst_lts`. -/
  | enter (i : ι) (tv_sec tv_usec : ℕ)
  /-- `lst_lts = 0` -/
  | reset (i : ι)
  | append (i : ι) (log_line : Bytes)
  /-- `while(running)` -/
  | test
  | lock
  /-- `wait_for` returns. -/
  | wake
  | take
  | decis (ok : Bool)
  | write (beyond : Bytes)
  | advance
  /-- `~rlog` begins: `running=false`, if there is a thread to join. -/
  | dtor
  | join
  /-- The rest of `~rlog`. -/
  | flush (ok : Bool) (beyond : Bytes)
  deriving DecidableEq, Repr

namespace Rlog

variable {ι : Type}

def start (raw : ℕ → ℕ → Byte) (localtime : ℕ → Tm) (one_buff_len now : ℕ)
    (files : LogPath → Option Bytes) : Rlog ι where
  ring := .start raw one_buff_len
  file := .start files
  tm_ := .new localtime now
  running := false
  life := .fresh
  persister := .absent
  thread _ := .out

def move [DecidableEq ι] (s : Rlog ι) (i : ι) (c : Producer) : Rlog ι :=
  { s with thread := Function.update s.thread i c }

/-- `lst_lts && curr_sec-lst_lts<RELOG_THRESOLD` -/
def tooSoon (s : Rlog ι) (curr_sec : ℕ) : Bool :=
  s.ring.lst_lts ≠ 0 && (curr_sec + 2 ^ 64 - s.ring.lst_lts) % 2 ^ 64 < RELOG_THRESOLD

/-- What `~rlog` does when the thread has ended. -/
def flush (s : Rlog ι) (ok : Bool) (beyond : Bytes) : Rlog ι :=
  if (s.ring.buf s.ring.prst_buf).empty then s
  else
    let disk := s.file.disk.openApp ⟨s.tm_.date, none⟩ ok
    let text := (s.ring.buf s.ring.prst_buf).text beyond
    let ring := s.ring.persist beyond
    { s with
      file := { s.file with date_ := s.tm_.date, disk := (disk.write text).close }
      ring := { ring with persisted := if disk.failbit then s.ring.persisted else ring.persisted } }

end Rlog

/-- The threads that log, the persister, and the thread that owns the logger. -/
def logger {ι : Type} [DecidableEq ι] (raw : ℕ → ℕ → Byte) (localtime : ℕ → Tm) :
    System (Rlog ι) (LogEvent ι) Fault where
  guard s
    | .init _ => s.life = .fresh
    | .store => s.life = .created
    | .enter i tv_sec _ => s.thread i = .out ∧ 0 < tv_sec
    | .reset i => (s.thread i).formats.isSome = true
    | .append i log_line => (s.thread i).logs.isSome = true ∧ s.persister ≠ .taking ∧
        log_line.length < 2 ^ 32
    | .test => s.persister = .top
    | .lock => s.persister = .entering
    | .wake => s.persister = .waiting
    | .take => s.persister = .taking
    | .decis _ => s.persister.decides.isSome = true
    | .write _ => s.persister = .writing
    | .advance => s.persister = .advancing
    | .dtor => s.life = .fresh ∨ s.life = .alive
    | .join => s.life.joins.isSome = true ∧ s.persister = .exited
    | .flush _ _ => s.life.flushes.isSome = true
  step s
    | .init ok => .ok
        { s with life := .created, persister := .top, file := { s.file with env_ok := ok } }
    | .store => .ok { s with life := .alive, running := true }
    | .enter i tv_sec tv_usec =>
      let (tm, _, curr_sec) := s.tm_.getNowTime localtime tv_sec tv_usec
      let s := { s with tm_ := tm }
      .ok (if s.tooSoon curr_sec then s else s.move i (.format curr_sec))
    | .reset i =>
      match (s.thread i).formats with
      | some curr_sec => .ok ({ s with ring := { s.ring with lst_lts := 0 } }.move i (.ready curr_sec))
      | none => .error .pastEnd
    | .append i log_line =>
      match (s.thread i).logs with
      | some curr_sec => .ok ({ s with ring := s.ring.critical raw log_line curr_sec }.move i .out)
      | none => .error .pastEnd
    | .test => .ok { s with persister := if s.running then .entering else .exited }
    | .lock => .ok
        { s with persister := if s.ring.status s.ring.prst_buf = .FREE then .waiting else .taking }
    | .wake => .ok { s with persister := .taking }
    | .take => .ok (if (s.ring.buf s.ring.prst_buf).empty then { s with persister := .top }
        else { s with persister := .deciding s.tm_.date, ring := s.ring.take })
    | .decis ok =>
      match s.persister.decides with
      | some date =>
        let file := s.file.decisFile date ok
        .ok { s with file := file, persister := if file.disk.isOpen then .writing else .top }
      | none => .error .pastEnd
    | .write beyond =>
      let text := (s.ring.buf s.ring.prst_buf).text beyond
      .ok { s with
        persister := .advancing
        file := { s.file with disk := s.file.disk.write text }
        ring := s.ring.persist beyond }
    | .advance => .ok { s with persister := .top, ring := s.ring.advance }
    | .dtor => .ok (if s.persister = .absent then { s with life := .returned s.ring.lines.length }
        else { s with life := .joining s.ring.lines.length, running := false })
    | .join =>
      match s.life.joins with
      | some stored => .ok { s with life := .joined stored }
      | none => .error .pastEnd
    | .flush ok beyond =>
      match s.life.flushes with
      | some stored => .ok { s.flush ok beyond with life := .returned stored }
      | none => .error .pastEnd

instance {ι : Type} [DecidableEq ι] (raw : ℕ → ℕ → Byte) (localtime : ℕ → Tm) (s : Rlog ι) :
    (ev : LogEvent ι) → Decidable ((logger raw localtime).guard s ev)
  | .init _ | .store | .reset _ | .test | .lock | .wake | .take | .decis _ | .write _ | .advance
  | .flush _ _ => inferInstanceAs (Decidable (_ = _))
  | .enter _ _ _ | .join => inferInstanceAs (Decidable (_ ∧ _))
  | .append _ _ => inferInstanceAs (Decidable (_ ∧ _ ∧ _))
  | .dtor => inferInstanceAs (Decidable (_ ∨ _))

/-- The only thread logs a line. -/
def logLine (log_line : Bytes) : List (LogEvent Unit) := [.enter () 1 0, .reset (), .append () log_line]

/-! ### What a step does -/

theorem Persister.eq_deciding {p : Persister} {date : Int × Int × Int} (h : p.decides = some date) :
    p = .deciding date := by
  cases p with
  | deciding date' => rw [Option.some.inj h]
  | _ => cases h

theorem LogLife.eq_joining {l : LogLife} {stored : ℕ} (h : l.joins = some stored) :
    l = .joining stored := by
  cases l with
  | joining stored' => rw [Option.some.inj h]
  | _ => cases h

theorem LogLife.eq_joined {l : LogLife} {stored : ℕ} (h : l.flushes = some stored) :
    l = .joined stored := by
  cases l with
  | joined stored' => rw [Option.some.inj h]
  | _ => cases h

section

variable {ι : Type} [DecidableEq ι] {raw : ℕ → ℕ → Byte} {localtime : ℕ → Tm} {s t : Rlog ι}

theorem enter_inv {i : ι} {tv_sec tv_usec : ℕ}
    (hs : (logger raw localtime).step s (.enter i tv_sec tv_usec) = .ok t) :
    ∃ thread, t = { s with tm_ := (s.tm_.getNowTime localtime tv_sec tv_usec).1, thread := thread } ∧
      ∀ j, thread j = s.thread j ∨ thread j = .format tv_sec := by
  unfold logger at hs
  dsimp only at hs
  split_ifs at hs <;> cases hs
  · exact ⟨_, rfl, fun _ => .inl rfl⟩
  · refine ⟨_, rfl, ?_⟩
    intro j
    by_cases hj : j = i
    · exact .inr (hj ▸ Function.update_self ..)
    · exact .inl (Function.update_of_ne hj ..)

theorem reset_inv {i : ι} (hg : (logger raw localtime).guard s (.reset i))
    (hs : (logger raw localtime).step s (.reset i) = .ok t) :
    ∃ curr_sec, (s.thread i).formats = some curr_sec ∧
      t = { s with ring := { s.ring with lst_lts := 0 } }.move i (.ready curr_sec) := by
  obtain ⟨curr_sec, hi⟩ := Option.isSome_iff_exists.mp hg
  unfold logger at hs
  dsimp only at hs
  rw [hi] at hs
  cases hs
  exact ⟨curr_sec, hi, rfl⟩

theorem append_inv {i : ι} {log_line : Bytes} (hg : (logger raw localtime).guard s (.append i log_line))
    (hs : (logger raw localtime).step s (.append i log_line) = .ok t) :
    ∃ curr_sec, (s.thread i).logs = some curr_sec ∧
      t = { s with ring := s.ring.critical raw log_line curr_sec }.move i .out := by
  obtain ⟨curr_sec, hi⟩ := Option.isSome_iff_exists.mp hg.1
  unfold logger at hs
  dsimp only at hs
  rw [hi] at hs
  cases hs
  exact ⟨curr_sec, hi, rfl⟩

theorem decis_inv {ok : Bool} (hg : (logger raw localtime).guard s (.decis ok))
    (hs : (logger raw localtime).step s (.decis ok) = .ok t) :
    ∃ date, s.persister = .deciding date ∧
      t = { s with
        file := s.file.decisFile date ok
        persister := if (s.file.decisFile date ok).disk.isOpen then .writing else .top } := by
  obtain ⟨date, hdate⟩ := Option.isSome_iff_exists.mp hg
  unfold logger at hs
  dsimp only at hs
  rw [hdate] at hs
  cases hs
  exact ⟨date, Persister.eq_deciding hdate, rfl⟩

theorem take_inv (hs : (logger raw localtime).step s .take = .ok t) :
    t = { s with persister := .top } ∨
      t = { s with persister := .deciding s.tm_.date, ring := s.ring.take } := by
  unfold logger at hs
  dsimp only at hs
  split_ifs at hs <;> cases hs
  · exact .inl rfl
  · exact .inr rfl

theorem dtor_inv (hs : (logger raw localtime).step s .dtor = .ok t) :
    (s.persister = .absent ∧ t = { s with life := .returned s.ring.lines.length }) ∨
      (s.persister ≠ .absent ∧ t = { s with life := .joining s.ring.lines.length, running := false }) := by
  unfold logger at hs
  dsimp only at hs
  split_ifs at hs with hper <;> cases hs
  · exact .inl ⟨hper, rfl⟩
  · exact .inr ⟨hper, rfl⟩

theorem join_inv (hg : (logger raw localtime).guard s .join)
    (hs : (logger raw localtime).step s .join = .ok t) :
    ∃ stored, s.life = .joining stored ∧ t = { s with life := .joined stored } := by
  obtain ⟨stored, hlife⟩ := Option.isSome_iff_exists.mp hg.1
  unfold logger at hs
  dsimp only at hs
  rw [hlife] at hs
  cases hs
  exact ⟨stored, LogLife.eq_joining hlife, rfl⟩

theorem flush_inv {ok : Bool} {beyond : Bytes} (hg : (logger raw localtime).guard s (.flush ok beyond))
    (hs : (logger raw localtime).step s (.flush ok beyond) = .ok t) :
    ∃ stored, s.life = .joined stored ∧ t = { s.flush ok beyond with life := .returned stored } := by
  obtain ⟨stored, hlife⟩ := Option.isSome_iff_exists.mp hg
  unfold logger at hs
  dsimp only at hs
  rw [hlife] at hs
  cases hs
  exact ⟨stored, LogLife.eq_joined hlife, rfl⟩

end

end MuduoSe
