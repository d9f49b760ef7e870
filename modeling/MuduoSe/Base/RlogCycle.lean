/-
# The ring of the logger in every run

Whatever the threads that log, the persister and the owner of the logger do, and in whatever order:
the buffers that were made are linked in one circle, forwards by `next` and backwards by `pre`
(`LogRing.Cycle`). A buffer is inserted into it behind the current one wherever that is, and a
buffer never leaves it; `cur_buf` and `prst_buf` go around in it.

`one_buff_len` is 30 MB, so `MEM_USE_LIMIT` allows 102 buffers, and nothing of the limit test wraps.

* `logger_moved`: what a step does to the ring is one of six things.
* `ring_well_formed`: the circle and its bounds, in every reachable state.

Key definitions: `LogRing.Moved`, `LogRing.Cycle`, `LogRing.WellFormed`.
Key theorems: `logger_moved`, `Cycle.grow`, `Cycle.moved`, `ring_well_formed`.
-/
import MuduoSe.Base.RlogLines

namespace MuduoSe

/-- `rlog::one_buff_len` -/
def Rlog.one_buff_len : ℕ := 30 * 1024 * 1024

namespace LogRing

/-! ### What a step does to the ring -/

/-- The ways in which a step of the logger changes its ring. -/
inductive Moved (raw : ℕ → ℕ → Byte) (r : LogRing) : LogRing → Prop
  | same : Moved raw r r
  | reset : Moved raw r { r with lst_lts := 0 }
  | critical (log_line : Bytes) (curr_sec : ℕ) : Moved raw r (r.critical raw log_line curr_sec)
  | take : Moved raw r r.take
  | persist (beyond : Bytes) (persisted : List Block) :
      Moved raw r { r.persist beyond with persisted := persisted }
  | advance : Moved raw r r.advance

end LogRing

section

variable {ι : Type} [DecidableEq ι] {raw : ℕ → ℕ → Byte} {localtime : ℕ → Tm} {s t : Rlog ι}
  {ev : LogEvent ι}

theorem logger_moved (hg : (logger raw localtime).guard s ev)
    (hs : (logger raw localtime).step s ev = .ok t) : s.ring.Moved raw t.ring := by
  cases ev with
  | enter i tv_sec tv_usec =>
    obtain ⟨thread, rfl, -⟩ := enter_inv hs
    exact .same
  | reset i =>
    obtain ⟨curr_sec, -, rfl⟩ := reset_inv hg hs
    exact .reset
  | append i log_line =>
    obtain ⟨curr_sec, -, rfl⟩ := append_inv hg hs
    exact .critical log_line curr_sec
  | take =>
    rcases take_inv hs with rfl | rfl
    · exact .same
    · exact .take
  | decis ok =>
    obtain ⟨date, -, rfl⟩ := decis_inv hg hs
    exact .same
  | write beyond =>
    cases hs
    exact .persist beyond _
  | advance =>
    cases hs
    exact .advance
  | dtor =>
    rcases dtor_inv hs with ⟨-, rfl⟩ | ⟨-, rfl⟩ <;> exact .same
  | join =>
    obtain ⟨stored, -, rfl⟩ := join_inv hg hs
    exact .same
  | flush ok beyond =>
    obtain ⟨stored, -, rfl⟩ := flush_inv hg hs
    unfold Rlog.flush
    split_ifs
    · exact .same
    · exact .persist beyond _
  | init _ | store | test | lock | wake =>
    cases hs
    exact .same

end

namespace LogRing

def pre (r : LogRing) (p : ℕ) : ℕ := (r.buf p).pre

def len (r : LogRing) (p : ℕ) : ℕ := (r.buf p).len_

/-- The buffer was made. -/
def Made (r : LogRing) (p : ℕ) : Prop := 0 < p ∧ p < r.fresh

variable {r s : LogRing} {l : List ℕ} {raw : ℕ → ℕ → Byte} {log_line beyond : Bytes} {curr_sec p q k : ℕ}

@[simp] theorem setNext_pre : (r.setNext p k).pre q = r.pre q := setBuf_same CellBuffer.pre rfl

@[simp] theorem setNext_len : (r.setNext p k).len q = r.len q := setBuf_same CellBuffer.len_ rfl

theorem setPre_pre : (r.setPre p k).pre q = if q = p then k else r.pre q := setBuf_view CellBuffer.pre

@[simp] theorem setPre_len : (r.setPre p k).len q = r.len q := setBuf_same CellBuffer.len_ rfl

/-! ### What leaves the links alone -/

/-- The buffers are the same and linked in the same way. -/
structure Alike (r s : LogRing) : Prop where
  one_buff_len : s.one_buff_len = r.one_buff_len
  fresh : s.fresh = r.fresh
  buf_cnt : s.buf_cnt = r.buf_cnt
  next : ∀ p, s.next p = r.next p
  pre : ∀ p, s.pre p = r.pre p
  len : ∀ p, s.len p = r.len p

theorem Alike.rfl : r.Alike r := ⟨Eq.refl _, Eq.refl _, Eq.refl _, fun _ => Eq.refl _, fun _ => Eq.refl _,
  fun _ => Eq.refl _⟩

/-- A buffer that keeps its links and its length is written. -/
theorem setBuf_alike {b : CellBuffer} (hnext : b.next = r.next p) (hpre : b.pre = r.pre p)
    (hlen : b.len_ = r.len p) : r.Alike (r.setBuf p b) :=
  ⟨rfl, rfl, rfl, fun _ => setBuf_same CellBuffer.next hnext, fun _ => setBuf_same CellBuffer.pre hpre,
    fun _ => setBuf_same CellBuffer.len_ hlen⟩

theorem setStatus_alike (r : LogRing) (p : ℕ) (status : BufferStatus) : r.Alike (r.setStatus p status) :=
  setBuf_alike rfl rfl rfl

theorem persist_alike (r : LogRing) (beyond : Bytes) : r.Alike (r.persist beyond) := by
  have h : r.Alike (r.setBuf r.prst_buf (r.buf r.prst_buf).clear) := setBuf_alike rfl rfl rfl
  exact ⟨h.one_buff_len, h.fresh, h.buf_cnt, h.next, h.pre, h.len⟩

theorem put_alike (r : LogRing) (log_line : Bytes) : r.Alike (r.put log_line) := by
  rcases r.put_cases log_line with ⟨-, hput⟩ | ⟨-, hput⟩
  · rw [hput]
    exact .rfl
  · have h : r.Alike (r.setBuf r.cur_buf ((r.buf r.cur_buf).append log_line)) :=
      setBuf_alike CellBuffer.append_next CellBuffer.append_pre CellBuffer.append_len
    rw [hput]
    exact ⟨h.one_buff_len, h.fresh, h.buf_cnt, h.next, h.pre, h.len⟩

/-! ### The circle -/

/-- The buffers of `l` are those that were made, linked in a circle both ways. -/
structure Cycle (r : LogRing) (l : List ℕ) : Prop where
  nodup : l.Nodup
  made : ∀ p, p ∈ l ↔ r.Made p
  count : l.length = r.buf_cnt
  three : 3 ≤ l.length
  linked : RingOf r.next l
  pre : ∀ p ∈ l, r.pre (r.next p) = p
  len : ∀ p ∈ l, r.len p = r.one_buff_len % 2 ^ 32
  cur : r.cur_buf ∈ l
  prst : r.prst_buf ∈ l
  memory : r.one_buff_len * r.buf_cnt ≤ MEM_USE_LIMIT

theorem Cycle.congr (h : r.Cycle l) (ha : r.Alike s) (hcur : s.cur_buf ∈ l) (hprst : s.prst_buf ∈ l) :
    s.Cycle l := by
  refine ⟨h.nodup, ?_, ?_, h.three, h.linked.congr fun p _ => ha.next p, ?_, ?_, hcur, hprst, ?_⟩
  · intro p
    unfold Made
    rw [ha.fresh]
    exact h.made p
  · rw [ha.buf_cnt]
    exact h.count
  · intro p hp
    rw [ha.next, ha.pre]
    exact h.pre p hp
  · intro p hp
    rw [ha.len, ha.one_buff_len]
    exact h.len p hp
  · rw [ha.one_buff_len, ha.buf_cnt]
    exact h.memory

theorem Cycle.cur_next (h : r.Cycle l) : r.next r.cur_buf ∈ l := h.linked.next_mem h.cur

theorem Cycle.next_ne (h : r.Cycle l) (hp : p ∈ l) : r.next p ≠ p :=
  h.linked.next_ne h.nodup (Nat.le_of_succ_le h.three) hp

/-- The limit test is exact. -/
theorem Cycle.exhausted_iff (h : r.Cycle l) :
    r.Exhausted ↔ MEM_USE_LIMIT < r.one_buff_len * (r.buf_cnt + 1) := by
  have hmem := h.memory
  have hone : r.one_buff_len ≤ r.one_buff_len * r.buf_cnt := by
    have hcount := h.count
    have hthree := h.three
    exact Nat.le_mul_of_pos_right _ (by omega)
  have hsucc := Nat.mul_add_one r.one_buff_len r.buf_cnt
  unfold Exhausted
  unfold MEM_USE_LIMIT at hmem ⊢
  rw [Nat.mod_eq_of_lt (by omega)]

theorem grow_pre : (r.grow raw p).pre q =
    if q = r.fresh then r.cur_buf else if q = p then r.fresh else r.pre q := by
  have hgrow : (r.grow raw p).pre q =
      (((((r.alloc raw).setNext r.fresh p).setNext r.cur_buf r.fresh).setPre p r.fresh).setPre r.fresh
        r.cur_buf).pre q := rfl
  rw [hgrow, setPre_pre, setPre_pre, setNext_pre, setNext_pre]
  split_ifs with hq
  · rfl
  · rfl
  · exact congrArg CellBuffer.pre (setBuf_of_ne hq)

theorem grow_len : (r.grow raw p).len q =
    if q = r.fresh then r.one_buff_len % 2 ^ 32 else r.len q := by
  have hgrow : (r.grow raw p).len q =
      (((((r.alloc raw).setNext r.fresh p).setNext r.cur_buf r.fresh).setPre p r.fresh).setPre r.fresh
        r.cur_buf).len q := rfl
  rw [hgrow, setPre_len, setPre_len, setNext_len, setNext_len]
  exact setBuf_view CellBuffer.len_

/-- **The four updates of the links** insert the new buffer between the current one and the next. -/
theorem Cycle.grow (h : r.Cycle l) (raw : ℕ → ℕ → Byte) (hex : ¬r.Exhausted) :
    ∃ m, (r.grow raw (r.next r.cur_buf)).Cycle (m ++ [r.cur_buf] ++ [r.fresh]) := by
  have hroom := mt h.exhausted_iff.mpr hex
  obtain ⟨a, b, hl⟩ := List.append_of_mem h.cur
  have hperm : (b ++ a ++ [r.cur_buf]).Perm l := by
    rw [hl, List.append_assoc]
    exact List.perm_append_comm.trans (by simp)
  have hmem : ∀ {p}, p ∈ b ++ a ++ [r.cur_buf] ↔ p ∈ l := hperm.mem_iff
  have hnodup : (b ++ a ++ [r.cur_buf]).Nodup := hperm.nodup_iff.mpr h.nodup
  have hlinked : RingOf r.next (b ++ a ++ [r.cur_buf]) := by
    have hlinked := h.linked
    rw [hl, List.append_cons] at hlinked
    exact List.append_assoc .. ▸ hlinked.rotate
  have hnew : r.fresh ∉ l := fun hin => lt_irrefl _ ((h.made _).mp hin).2
  have hcur : r.fresh ≠ r.cur_buf := fun he => hnew (he ▸ h.cur)
  have hnext : r.next r.cur_buf ≠ r.fresh := fun he => hnew (he ▸ h.cur_next)
  have hfresh : 0 < r.fresh := lt_of_le_of_lt (Nat.zero_le _) ((h.made _).mp h.cur).2
  refine ⟨b ++ a, ?_, ?_, ?_, ?_, ?_, ?_, ?_, ?_, ?_, ?_⟩
  · refine List.Nodup.append hnodup (List.nodup_singleton _) ?_
    intro p hp hq
    exact hnew (List.mem_singleton.mp hq ▸ hmem.mp hp)
  · intro p
    rw [List.mem_append, hmem, List.mem_singleton, h.made]
    show _ ↔ 0 < p ∧ p < r.fresh + 1
    unfold Made
    omega
  · rw [List.length_append, hperm.length_eq, h.count]
    rfl
  · rw [List.length_append, hperm.length_eq]
    exact Nat.le_add_right_of_le h.three
  · refine hlinked.insert ?_ ?_ ?_
    · intro p hp
      have hne : p ≠ r.cur_buf := by
        rintro rfl
        exact (List.nodup_append.mp hnodup).2.2 _ hp _ (List.mem_singleton_self _) rfl
      have hin : p ∈ l := hmem.mp (List.mem_append_left _ hp)
      rw [grow_next, if_neg hne, if_neg fun he : p = r.fresh => hnew (he ▸ hin)]
    · rw [grow_next, if_pos rfl]
    · rw [grow_next, if_neg hcur, if_pos rfl]
  · intro p hp
    rw [grow_next]
    split_ifs with hpcur hpnew
    · rw [grow_pre, if_pos rfl, hpcur]
    · rw [grow_pre, if_neg hnext, if_pos rfl, hpnew]
    · have hin : p ∈ l := by
        rcases List.mem_append.mp hp with hp | hp
        · exact hmem.mp hp
        · exact absurd (List.mem_singleton.mp hp) hpnew
      have hpnext : r.next p ≠ r.fresh := fun he => hnew (he ▸ h.linked.next_mem hin)
      have hother : r.next p ≠ r.next r.cur_buf := fun he =>
        hpcur (h.linked.next_inj h.nodup hin h.cur he)
      rw [grow_pre, if_neg hpnext, if_neg hother]
      exact h.pre p hin
  · intro p hp
    show _ = r.one_buff_len % 2 ^ 32
    rw [grow_len]
    split_ifs with hpnew
    · rfl
    · rcases List.mem_append.mp hp with hp | hp
      · exact h.len p (hmem.mp hp)
      · exact absurd (List.mem_singleton.mp hp) hpnew
  · rw [grow_cur]
    exact List.mem_append_right _ (List.mem_singleton_self _)
  · exact List.mem_append_left _ (hmem.mpr h.prst)
  · exact not_lt.mp hroom

/-! ### Every step -/

/-- On to the next buffer, or to a new one. -/
theorem turnOver_cases (r : LogRing) (raw : ℕ → ℕ → Byte) (curr_sec : ℕ) :
    (r.Alike (r.turnOver raw curr_sec) ∧ (r.turnOver raw curr_sec).cur_buf = r.next r.cur_buf) ∨
    ¬r.Exhausted ∧ r.turnOver raw curr_sec =
      (r.setStatus r.cur_buf .FULL).grow raw ((r.setStatus r.cur_buf .FULL).next r.cur_buf) := by
  have ha := setStatus_alike r r.cur_buf .FULL
  have hnext : (r.setStatus r.cur_buf .FULL).next r.cur_buf = r.next r.cur_buf := setStatus_next
  unfold turnOver
  dsimp only
  split_ifs with hfull hex
  · exact .inl ⟨⟨ha.one_buff_len, ha.fresh, ha.buf_cnt, ha.next, ha.pre, ha.len⟩, hnext⟩
  · exact .inr ⟨hex, rfl⟩
  · exact .inl ⟨⟨ha.one_buff_len, ha.fresh, ha.buf_cnt, ha.next, ha.pre, ha.len⟩, hnext⟩

theorem turnOver_len : (r.turnOver raw curr_sec).one_buff_len = r.one_buff_len := by
  unfold turnOver
  dsimp only
  split_ifs <;> rfl

theorem Cycle.turnOver (h : r.Cycle l) (raw : ℕ → ℕ → Byte) (curr_sec : ℕ) :
    ∃ m, (r.turnOver raw curr_sec).Cycle m := by
  rcases r.turnOver_cases raw curr_sec with ⟨ha, hcur⟩ | ⟨hex, hgrow⟩
  · refine ⟨l, h.congr ha (hcur ▸ h.cur_next) ?_⟩
    rw [turnOver_same.2]
    exact h.prst
  · have hfull : (r.setStatus r.cur_buf .FULL).Cycle l := h.congr (setStatus_alike ..) h.cur h.prst
    obtain ⟨m, hm⟩ := hfull.grow raw hex
    rw [hgrow]
    exact ⟨_, hm⟩

theorem Cycle.put (h : r.Cycle l) : (r.put log_line).Cycle l := by
  have hcur : (r.put log_line).cur_buf = r.cur_buf := put_same.1
  have hprst : (r.put log_line).prst_buf = r.prst_buf := put_same.2.1
  refine h.congr (put_alike ..) ?_ ?_
  · rw [hcur]
    exact h.cur
  · rw [hprst]
    exact h.prst

theorem Cycle.critical (h : r.Cycle l) (raw : ℕ → ℕ → Byte) (log_line : Bytes) (curr_sec : ℕ) :
    ∃ m, (r.critical raw log_line curr_sec).Cycle m := by
  obtain ⟨m, hm⟩ := h.turnOver raw curr_sec
  unfold LogRing.critical
  dsimp only
  split_ifs
  · exact ⟨l, h.put⟩
  · exact ⟨m, hm.put⟩
  · exact ⟨m, hm⟩
  · exact ⟨l, h.congr ⟨rfl, rfl, rfl, fun _ => rfl, fun _ => rfl, fun _ => rfl⟩ h.cur h.prst⟩

/-- **Every step keeps the circle.** -/
theorem Cycle.moved (h : r.Cycle l) (hm : r.Moved raw s) : ∃ m, s.Cycle m := by
  cases hm with
  | same => exact ⟨l, h⟩
  | reset => exact ⟨l, h.congr ⟨rfl, rfl, rfl, fun _ => rfl, fun _ => rfl, fun _ => rfl⟩ h.cur h.prst⟩
  | critical log_line curr_sec => exact h.critical raw log_line curr_sec
  | take =>
    have ha := setStatus_alike r r.cur_buf .FULL
    have hnext : (r.setStatus r.cur_buf .FULL).next r.cur_buf = r.next r.cur_buf := setStatus_next
    unfold LogRing.take
    dsimp only
    split_ifs
    · refine ⟨l, h.congr ⟨ha.one_buff_len, ha.fresh, ha.buf_cnt, ha.next, ha.pre, ha.len⟩ ?_ h.prst⟩
      exact hnext.symm ▸ h.cur_next
    · exact ⟨l, h⟩
  | persist beyond persisted =>
    have ha := r.persist_alike beyond
    exact ⟨l, h.congr ⟨ha.one_buff_len, ha.fresh, ha.buf_cnt, ha.next, ha.pre, ha.len⟩ h.cur h.prst⟩
  | advance =>
    refine ⟨l, h.congr ⟨rfl, rfl, rfl, fun _ => rfl, fun _ => rfl, fun _ => rfl⟩ h.cur ?_⟩
    exact h.linked.next_mem h.prst

theorem start_cycle (raw : ℕ → ℕ → Byte) {one_buff_len : ℕ} (hmem : one_buff_len * 3 ≤ MEM_USE_LIMIT) :
    (start raw one_buff_len).Cycle [1, 2, 3] := by
  refine ⟨by decide, ?_, rfl, by decide, rfl, ?_, ?_, List.mem_cons_self, List.mem_cons_self,
    hmem⟩
  · intro p
    show _ ↔ 0 < p ∧ p < 4
    simp only [List.mem_cons, List.not_mem_nil, or_false]
    omega
  · intro p hp
    obtain rfl | rfl | rfl : p = 1 ∨ p = 2 ∨ p = 3 := by simpa using hp
    all_goals rfl
  · intro p hp
    obtain rfl | rfl | rfl : p = 1 ∨ p = 2 ∨ p = 3 := by simpa using hp
    all_goals rfl

/-! ### Every run -/

/-- The buffers are linked in one circle, in which `cur_buf` and `prst_buf` are, and have no more
memory than they may. -/
structure WellFormed (r : LogRing) : Prop where
  /-- Those that were made are as many as `_buf_cnt` says. -/
  count : r.fresh = r.buf_cnt + 1
  /-- From each of them, `next` visits `_buf_cnt` different ones, all there are, and returns. -/
  next : ∀ p, r.Made p → (List.iterate r.next p r.buf_cnt).Nodup ∧
    (∀ q, q ∈ List.iterate r.next p r.buf_cnt ↔ r.Made q) ∧ r.next^[r.buf_cnt] p = p
  /-- `pre` is the inverse of `next`. -/
  pre : ∀ p, r.Made p → r.pre (r.next p) = p ∧ r.next (r.pre p) = p
  cur : r.Made r.cur_buf
  prst : r.Made r.prst_buf
  memory : r.one_buff_len * r.buf_cnt ≤ MEM_USE_LIMIT
  /-- The limit test is the one on the numbers, and the numbers fit their types: `_buf_cnt+1` an int,
  the product 64 bits, the limit 32. -/
  exhausted : r.Exhausted ↔ MEM_USE_LIMIT < r.one_buff_len * (r.buf_cnt + 1)
  fits : r.buf_cnt + 1 < 2 ^ 31 ∧ r.one_buff_len * (r.buf_cnt + 1) < 2 ^ 64 ∧ MEM_USE_LIMIT < 2 ^ 32
  /-- So does the length of a buffer, a `uint32_t`. -/
  len : ∀ p, r.Made p → r.len p = r.one_buff_len

theorem Cycle.wellFormed (h : r.Cycle l) (hlen : r.one_buff_len = Rlog.one_buff_len) : r.WellFormed := by
  have hmem := h.memory
  have hcount := h.count
  have hthree := h.three
  unfold MEM_USE_LIMIT at hmem
  rw [hlen] at hmem
  unfold Rlog.one_buff_len at hmem hlen
  have hmade : l.Perm (List.range' 1 (r.fresh - 1)) := by
    rw [List.perm_ext_iff_of_nodup h.nodup List.nodup_range']
    intro p
    rw [h.made, List.mem_range'_1]
    unfold Made
    omega
  have hfresh : l.length = r.fresh - 1 := by
    rw [hmade.length_eq, List.length_range']
  refine ⟨by omega, ?_, ?_, (h.made _).mp h.cur, (h.made _).mp h.prst, h.memory, h.exhausted_iff, ?_, ?_⟩
  · intro p hp
    obtain ⟨hperm, hreturn⟩ := h.linked.iterate_from ((h.made p).mpr hp)
    rw [hcount] at hperm hreturn
    exact ⟨hperm.nodup_iff.mpr h.nodup, fun q => hperm.mem_iff.trans (h.made q), hreturn⟩
  · intro p hp
    have hin := (h.made p).mpr hp
    obtain ⟨q, hq, rfl⟩ := h.linked.exists_next hin
    exact ⟨h.pre _ hin, by rw [h.pre q hq]⟩
  · rw [hlen]
    unfold MEM_USE_LIMIT
    omega
  · intro p hp
    rw [h.len p ((h.made p).mpr hp), hlen]
    rfl

/-- A step does not change the length. -/
theorem Moved.one_buff_len (h : r.Moved raw s) : s.one_buff_len = r.one_buff_len := by
  cases h with
  | critical log_line curr_sec =>
    unfold LogRing.critical
    dsimp only
    split_ifs
    · exact (put_alike ..).one_buff_len
    · exact (put_alike ..).one_buff_len.trans turnOver_len
    · exact turnOver_len
    · rfl
  | take =>
    unfold LogRing.take
    dsimp only
    split_ifs <;> rfl
  | _ => rfl

end LogRing

section

variable {ι : Type} [DecidableEq ι] {raw : ℕ → ℕ → Byte} {localtime : ℕ → Tm} {s : Rlog ι} {now : ℕ}
  {files : LogPath → Option Bytes} {es : List (LogEvent ι)}

theorem logger_cycle
    (h : (logger raw localtime).Run (.start raw localtime Rlog.one_buff_len now files) es s) :
    (∃ l, s.ring.Cycle l) ∧ s.ring.one_buff_len = Rlog.one_buff_len := by
  refine h.invariant
    (I := fun s => (∃ l, s.ring.Cycle l) ∧ s.ring.one_buff_len = Rlog.one_buff_len) ?_
    ⟨⟨_, LogRing.start_cycle raw (by decide)⟩, rfl⟩
  rintro s t ev ⟨⟨l, hl⟩, hlen⟩ hg hs
  have hm := logger_moved hg hs
  exact ⟨hl.moved hm, hm.one_buff_len.trans hlen⟩

/-- **The ring is well-formed and bounded**, in every reachable state. -/
theorem ring_well_formed
    (h : (logger raw localtime).Run (.start raw localtime Rlog.one_buff_len now files) es s) :
    s.ring.WellFormed := by
  obtain ⟨⟨l, hl⟩, hlen⟩ := logger_cycle h
  exact hl.wellFormed hlen

end

/-- A line is logged, and a timeout of the persister writes it. -/
def oneIteration : List (LogEvent Unit) :=
  [.init true, .store] ++ logLine [97] ++ [.test, .lock, .wake, .take, .decis true, .write [], .advance]

theorem ring_well_formed_iteration : ∃ s, (logger (fun _ _ => 0) fun _ => default).Run
    (.start (fun _ _ => 0) (fun _ => default) Rlog.one_buff_len 0 fun _ => none) oneIteration s ∧
    s.ring.cur_buf = 2 ∧ s.ring.prst_buf = 2 ∧ s.ring.WellFormed := by
  have hrun : (((logger (fun _ _ => 0) fun _ => default).exec
      (.start (fun _ _ => 0) (fun _ => default) Rlog.one_buff_len 0 fun _ => none) oneIteration).map fun s =>
        (s.ring.cur_buf, s.ring.prst_buf)) = some (2, 2) := by
    decide +kernel
  obtain ⟨s, hs, hview⟩ := (System.exec_map_iff _).mp hrun
  exact ⟨s, hs, congrArg Prod.fst hview, congrArg Prod.snd hview, ring_well_formed hs⟩

end MuduoSe
