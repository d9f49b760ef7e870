/-
# The lines in the buffers

What the buffers and the blocks hold, in every run of the logger and whatever becomes of the ring: a
line that was stored is in one buffer or was persisted, a buffer holds the text of its lines one
after the other, and a block begins with the text of its own, up to a NUL.

Key definitions: `LogRing.Kept`, `Rlog.Sound`.
Key theorems: `Kept.put`, `Kept.critical`, `Kept.persist`, `thread_past`, `logger_sound`.
-/
import Mathlib.Data.List.GetD
import MuduoSe.Base.Rlog

namespace MuduoSe

namespace LogRing

variable {r s : LogRing} {p q k : ℕ} {b : CellBuffer} {log_line : Bytes}

/-! ### What the operations do to the links -/

@[simp] theorem setBuf_self : (r.setBuf p b).buf p = b := Function.update_self ..

theorem setBuf_of_ne (h : q ≠ p) : (r.setBuf p b).buf q = r.buf q := Function.update_of_ne h ..

theorem setBuf_view {α : Type} (f : CellBuffer → α) : f ((r.setBuf p b).buf q) =
    if q = p then f b else f (r.buf q) := by
  split_ifs with hq
  · rw [hq, setBuf_self]
  · rw [setBuf_of_ne hq]

/-- What a buffer keeps when it is written, all buffers keep. -/
theorem setBuf_same {α : Type} (f : CellBuffer → α) (hb : f b = f (r.buf p)) :
    f ((r.setBuf p b).buf q) = f (r.buf q) := by
  rw [setBuf_view f]
  split_ifs with hq
  · rw [hq, hb]
  · rfl

theorem setStatus_status {status : BufferStatus} : (r.setStatus p status).status q =
    if q = p then status else r.status q :=
  setBuf_view CellBuffer.status

@[simp] theorem setStatus_next {status : BufferStatus} : (r.setStatus p status).next q = r.next q :=
  setBuf_same CellBuffer.next rfl

@[simp] theorem setStatus_content {status : BufferStatus} :
    ((r.setStatus p status).buf q).content = (r.buf q).content :=
  setBuf_same CellBuffer.content rfl

theorem setNext_next : (r.setNext p k).next q = if q = p then k else r.next q :=
  setBuf_view CellBuffer.next

@[simp] theorem setNext_status : (r.setNext p k).status q = r.status q :=
  setBuf_same CellBuffer.status rfl

@[simp] theorem setNext_content : ((r.setNext p k).buf q).content = (r.buf q).content :=
  setBuf_same CellBuffer.content rfl

@[simp] theorem setPre_next : (r.setPre p k).next q = r.next q := setBuf_same CellBuffer.next rfl

@[simp] theorem setPre_status : (r.setPre p k).status q = r.status q :=
  setBuf_same CellBuffer.status rfl

@[simp] theorem setPre_content : ((r.setPre p k).buf q).content = (r.buf q).content :=
  setBuf_same CellBuffer.content rfl

theorem put_cases (r : LogRing) (log_line : Bytes) :
    ((r.buf r.cur_buf).availLen < log_line.length ∧ r.put log_line = r) ∨
    (log_line.length ≤ (r.buf r.cur_buf).availLen ∧ r.put log_line =
      { r.setBuf r.cur_buf ((r.buf r.cur_buf).append log_line) with
        lines := r.lines ++ [log_line]
        held := Function.update r.held r.cur_buf (r.held r.cur_buf ++ [r.lines.length]) }) := by
  unfold put
  dsimp only
  split_ifs with hfits
  · exact .inr ⟨hfits, rfl⟩
  · refine .inl ⟨not_le.mp hfits, ?_⟩
    rw [CellBuffer.append_full hfits]
    unfold setBuf
    rw [Function.update_eq_self]

@[simp] theorem put_next : (r.put log_line).next q = r.next q := by
  rcases r.put_cases log_line with ⟨-, hput⟩ | ⟨-, hput⟩ <;> rw [hput]
  exact setBuf_same CellBuffer.next CellBuffer.append_next

@[simp] theorem put_status : (r.put log_line).status q = r.status q := by
  rcases r.put_cases log_line with ⟨-, hput⟩ | ⟨-, hput⟩ <;> rw [hput]
  exact setBuf_same CellBuffer.status CellBuffer.append_status

theorem put_same : (r.put log_line).cur_buf = r.cur_buf ∧ (r.put log_line).prst_buf = r.prst_buf ∧
    (r.put log_line).fresh = r.fresh ∧ (r.put log_line).persisted = r.persisted := by
  rcases r.put_cases log_line with ⟨-, hput⟩ | ⟨-, hput⟩ <;> rw [hput] <;> exact ⟨rfl, rfl, rfl, rfl⟩

variable {raw : ℕ → ℕ → Byte} {curr_sec : ℕ}

theorem grow_next : (r.grow raw p).next q =
    if q = r.cur_buf then r.fresh else if q = r.fresh then p else r.next q := by
  have hgrow : (r.grow raw p).next q =
      (((((r.alloc raw).setNext r.fresh p).setNext r.cur_buf r.fresh).setPre p r.fresh).setPre r.fresh
        r.cur_buf).next q := rfl
  rw [hgrow, setPre_next, setPre_next, setNext_next, setNext_next]
  split_ifs with hq hfresh
  · rfl
  · rfl
  · exact congrArg CellBuffer.next (setBuf_of_ne hfresh)

theorem grow_status : (r.grow raw p).status q = if q = r.fresh then .FREE else r.status q := by
  have hgrow : (r.grow raw p).status q =
      (((((r.alloc raw).setNext r.fresh p).setNext r.cur_buf r.fresh).setPre p r.fresh).setPre r.fresh
        r.cur_buf).status q := rfl
  rw [hgrow, setPre_status, setPre_status, setNext_status, setNext_status]
  exact setBuf_view CellBuffer.status

theorem grow_content : ((r.grow raw p).buf q).content =
    if q = r.fresh then [] else (r.buf q).content := by
  have hgrow : (r.grow raw p).buf q =
      (((((r.alloc raw).setNext r.fresh p).setNext r.cur_buf r.fresh).setPre p r.fresh).setPre r.fresh
        r.cur_buf).buf q := rfl
  rw [hgrow, setPre_content, setPre_content, setNext_content, setNext_content,
    ← CellBuffer.content_new]
  exact setBuf_view CellBuffer.content

theorem grow_cur : (r.grow raw p).cur_buf = r.fresh := by
  have hgrow : (r.grow raw p).cur_buf = (r.grow raw p).next r.cur_buf := rfl
  rw [hgrow, grow_next, if_pos rfl]

@[simp] theorem take_persisted : r.take.persisted = r.persisted := by
  unfold take
  split_ifs <;> rfl

theorem turnOver_same : (r.turnOver raw curr_sec).persisted = r.persisted ∧
    (r.turnOver raw curr_sec).prst_buf = r.prst_buf := by
  unfold turnOver
  dsimp only
  split_ifs <;> exact ⟨rfl, rfl⟩

theorem take_lines : r.take.lines = r.lines := by
  unfold take
  split_ifs <;> rfl

theorem turnOver_held : (r.turnOver raw curr_sec).held = r.held := by
  unfold turnOver
  dsimp only
  split_ifs <;> rfl

theorem turnOver_lines : (r.turnOver raw curr_sec).lines = r.lines := by
  unfold turnOver
  dsimp only
  split_ifs <;> rfl

theorem put_lines : r.lines.length ≤ (r.put log_line).lines.length := by
  rcases r.put_cases log_line with ⟨-, hput⟩ | ⟨-, hput⟩ <;> rw [hput]
  simp

theorem critical_lines : r.lines.length ≤ (r.critical raw log_line curr_sec).lines.length := by
  unfold critical
  dsimp only
  split_ifs
  · exact put_lines
  · exact turnOver_lines ▸ put_lines
  · rw [turnOver_lines]
  · exact le_refl _

theorem critical_same : (r.critical raw log_line curr_sec).persisted = r.persisted ∧
    (r.critical raw log_line curr_sec).prst_buf = r.prst_buf := by
  unfold critical
  dsimp only
  split_ifs
  · exact ⟨put_same.2.2.2, put_same.2.1⟩
  · exact ⟨put_same.2.2.2.trans turnOver_same.1, put_same.2.1.trans turnOver_same.2⟩
  · exact turnOver_same
  · exact ⟨rfl, rfl⟩

/-! ### What is kept -/

/-- Every line that was stored is in one buffer, or was persisted. -/
structure Kept (r : LogRing) : Prop where
  cur : r.cur_buf < r.fresh
  next : ∀ p < r.fresh, r.next p < r.fresh
  unused : ∀ p, r.fresh ≤ p → r.held p = []
  content : ∀ p, (r.buf p).content = (r.held p).flatMap r.line
  held : ∀ p, ∀ k ∈ r.held p, k < r.lines.length
  sorted : ∀ p, (r.held p).Pairwise (· < ·)
  once : ∀ k p q, k ∈ r.held p → k ∈ r.held q → p = q
  gone : ∀ b ∈ r.persisted, ∀ k ∈ b.ids, k < r.lines.length ∧ ∀ p, k ∉ r.held p
  text : ∀ b ∈ r.persisted, (b.ids.flatMap r.line).takeWhile (· ≠ 0) <+: b.text
  blocks : ∀ b ∈ r.persisted, b.ids.Pairwise (· < ·) ∧ (0 : Byte) ∉ b.text
  all : ∀ k < r.lines.length, (∃ p, k ∈ r.held p) ∨ ∃ b ∈ r.persisted, k ∈ b.ids

theorem start_kept (raw : ℕ → ℕ → Byte) (one_buff_len : ℕ) : (start raw one_buff_len).Kept := by
  refine ⟨by simp [start], ?_, ?_, ?_, ?_, ?_, ?_, ?_, ?_, ?_, ?_⟩
  · intro p hp
    have hp : p < 4 := hp
    obtain rfl | rfl | rfl | rfl : p = 0 ∨ p = 1 ∨ p = 2 ∨ p = 3 := by omega
    all_goals simp [LogRing.next, start, CellBuffer.new]
  · exact fun _ _ => rfl
  · intro p
    show CellBuffer.content _ = []
    unfold start
    dsimp only
    split <;> exact List.take_zero
  all_goals simp [start]

theorem Kept.lst (h : r.Kept) (x : ℕ) : Kept { r with lst_lts := x } :=
  ⟨h.cur, h.next, h.unused, h.content, h.held, h.sorted, h.once, h.gone, h.text, h.blocks,
    h.all⟩

theorem Kept.setStatus (h : r.Kept) (p : ℕ) (status : BufferStatus) : (r.setStatus p status).Kept := by
  refine ⟨h.cur, ?_, h.unused, ?_, h.held, h.sorted, h.once, h.gone, h.text, h.blocks,
    h.all⟩
  · intro q hq
    rw [setStatus_next]
    exact h.next q hq
  · intro q
    rw [setStatus_content]
    exact h.content q

theorem Kept.onward (h : r.Kept) : Kept { r with cur_buf := r.next r.cur_buf } :=
  ⟨h.next _ h.cur, h.next, h.unused, h.content, h.held, h.sorted, h.once, h.gone, h.text, h.blocks,
    h.all⟩

theorem Kept.advance (h : r.Kept) : r.advance.Kept :=
  ⟨h.cur, h.next, h.unused, h.content, h.held, h.sorted, h.once, h.gone, h.text, h.blocks,
    h.all⟩

/-- The lines so far keep their texts. -/
theorem line_append (hlt : k < r.lines.length) (hs : s.lines = r.lines ++ [log_line]) :
    s.line k = r.line k := by
  unfold line
  rw [hs, List.getD_append _ _ _ _ hlt]

theorem line_last (hs : s.lines = r.lines ++ [log_line]) : s.line r.lines.length = log_line := by
  unfold line
  rw [hs]
  simp

theorem texts_append {ids : List ℕ} (hlt : ∀ k ∈ ids, k < r.lines.length)
    (hs : s.lines = r.lines ++ [log_line]) : ids.flatMap s.line = ids.flatMap r.line :=
  List.flatMap_congr fun k hk => line_append (hlt k hk) hs

theorem Kept.put (h : r.Kept) (log_line : Bytes) : (r.put log_line).Kept := by
  rcases r.put_cases log_line with ⟨-, hput⟩ | ⟨hfits, hput⟩
  · rw [hput]
    exact h
  have hnext : ∀ q, (r.put log_line).next q = r.next q := fun _ => put_next
  rw [hput] at hnext ⊢
  set s : LogRing :=
    { r.setBuf r.cur_buf ((r.buf r.cur_buf).append log_line) with
      lines := r.lines ++ [log_line]
      held := Function.update r.held r.cur_buf (r.held r.cur_buf ++ [r.lines.length]) } with hs
  have hlines : s.lines = r.lines ++ [log_line] := rfl
  have hcur : s.held r.cur_buf = r.held r.cur_buf ++ [r.lines.length] := Function.update_self ..
  have hother : ∀ q, q ≠ r.cur_buf → s.held q = r.held q := fun q hq => Function.update_of_ne hq ..
  have hmem : ∀ q k, k ∈ s.held q ↔ k ∈ r.held q ∨ q = r.cur_buf ∧ k = r.lines.length := by
    intro q k
    by_cases hq : q = r.cur_buf
    · rw [hq, hcur]
      simp
    · rw [hother q hq]
      simp [hq]
  have hlen : s.lines.length = r.lines.length + 1 := by simp [hlines]
  have hnew : ∀ q, r.lines.length ∉ r.held q := fun q hq => lt_irrefl _ (h.held q _ hq)
  refine ⟨h.cur, ?_, ?_, ?_, ?_, ?_, ?_, ?_, ?_, h.blocks, ?_⟩
  · intro q hq
    rw [hnext]
    exact h.next q hq
  · intro q hq
    rw [hother q (ne_of_gt (lt_of_lt_of_le h.cur hq))]
    exact h.unused q hq
  · intro q
    by_cases hq : q = r.cur_buf
    · have hbuf : s.buf r.cur_buf = (r.buf r.cur_buf).append log_line := setBuf_self
      rw [hq, hbuf, CellBuffer.content_append hfits, h.content, hcur, List.flatMap_append,
        texts_append (h.held _) hlines, List.flatMap_singleton, line_last hlines]
    · have hbuf : s.buf q = r.buf q := setBuf_of_ne hq
      rw [hbuf, h.content, hother q hq, texts_append (h.held q) hlines]
  · intro q k hk
    rw [hlen]
    rcases (hmem q k).mp hk with hk | ⟨-, rfl⟩
    · exact Nat.lt_succ_of_lt (h.held q k hk)
    · exact Nat.lt_succ_self _
  · intro q
    by_cases hq : q = r.cur_buf
    · rw [hq, hcur, List.pairwise_append]
      refine ⟨h.sorted _, List.pairwise_singleton _ _, ?_⟩
      intro k hk j hj
      rw [List.mem_singleton.mp hj]
      exact h.held _ k hk
    · rw [hother q hq]
      exact h.sorted q
  · intro k p q hp hq
    rcases (hmem p k).mp hp with hp | ⟨rfl, rfl⟩
    · rcases (hmem q k).mp hq with hq | ⟨-, rfl⟩
      · exact h.once k p q hp hq
      · exact absurd hp (hnew p)
    · rcases (hmem q _).mp hq with hq | ⟨rfl, -⟩
      · exact absurd hq (hnew q)
      · rfl
  · intro b hb k hk
    obtain ⟨hlt, hout⟩ := h.gone b hb k hk
    refine ⟨hlen ▸ Nat.lt_succ_of_lt hlt, ?_⟩
    intro q hq
    rcases (hmem q k).mp hq with hq | ⟨-, rfl⟩
    · exact hout q hq
    · exact lt_irrefl _ hlt
  · intro b hb
    rw [texts_append (fun k hk => (h.gone b hb k hk).1) hlines]
    exact h.text b hb
  · intro k hk
    rcases Nat.lt_succ_iff_lt_or_eq.mp (hlen ▸ hk) with hk | rfl
    · rcases h.all k hk with ⟨q, hq⟩ | hb
      · exact .inl ⟨q, (hmem q k).mpr (.inl hq)⟩
      · exact .inr hb
    · exact .inl ⟨r.cur_buf, (hmem _ _).mpr (.inr ⟨rfl, rfl⟩)⟩

theorem Kept.grow (h : r.Kept) {next_buf : ℕ} (hlt : next_buf < r.fresh) :
    (r.grow raw next_buf).Kept := by
  have hfresh : (r.grow raw next_buf).fresh = r.fresh + 1 := rfl
  refine ⟨?_, ?_, ?_, ?_, h.held, h.sorted, h.once, h.gone, h.text, h.blocks,
    h.all⟩
  · rw [grow_cur, hfresh]
    exact Nat.lt_succ_self _
  · intro p hp
    rw [grow_next, hfresh]
    split_ifs with hcur hnew
    · exact Nat.lt_succ_self _
    · exact Nat.lt_succ_of_lt hlt
    · exact Nat.lt_succ_of_lt (h.next p (lt_of_le_of_ne (Nat.lt_succ_iff.mp hp) hnew))
  · exact fun p hp => h.unused p (Nat.le_of_succ_le hp)
  · intro p
    rw [grow_content]
    show _ = (r.held p).flatMap r.line
    split_ifs with hp
    · rw [hp, h.unused _ (le_refl _)]
      rfl
    · exact h.content p

theorem Kept.turnOver (h : r.Kept) : (r.turnOver raw curr_sec).Kept := by
  have hs : (r.setStatus r.cur_buf .FULL).Kept := h.setStatus _ _
  unfold LogRing.turnOver
  dsimp only
  split_ifs
  · exact hs.onward.lst curr_sec
  · exact hs.grow (hs.next _ hs.cur)
  · exact hs.onward

theorem Kept.critical (h : r.Kept) : (r.critical raw log_line curr_sec).Kept := by
  unfold LogRing.critical
  dsimp only
  split_ifs
  · exact h.put log_line
  · exact h.turnOver.put log_line
  · exact h.turnOver
  · exact h.lst curr_sec

theorem Kept.take (h : r.Kept) : r.take.Kept := by
  unfold LogRing.take
  dsimp only
  split_ifs
  · exact (h.setStatus _ _).onward
  · exact h

/-- The block begins with the text of the lines that the buffer held. -/
theorem Kept.persist (h : r.Kept) (beyond : Bytes) : (r.persist beyond).Kept := by
  set s := r.persist beyond with hs
  have hself : s.held r.prst_buf = [] := Function.update_self ..
  have hother : ∀ q, q ≠ r.prst_buf → s.held q = r.held q := fun q hq => Function.update_of_ne hq ..
  have hmem : ∀ q k, k ∈ s.held q ↔ q ≠ r.prst_buf ∧ k ∈ r.held q := by
    intro q k
    by_cases hq : q = r.prst_buf
    · rw [hq, hself]
      simp
    · rw [hother q hq]
      simp [hq]
  have hblock : ∀ b, b ∈ s.persisted ↔
      b ∈ r.persisted ∨ b = ⟨r.held r.prst_buf, (r.buf r.prst_buf).text beyond⟩ := by
    intro b
    show b ∈ r.persisted ++ [_] ↔ _
    rw [List.mem_append, List.mem_singleton]
  refine ⟨h.cur, ?_, ?_, ?_, ?_, ?_, ?_, ?_, ?_, ?_, ?_⟩
  · intro q hq
    have hnext : s.next q = r.next q := setBuf_same CellBuffer.next rfl
    rw [hnext]
    exact h.next q hq
  · intro q hq
    by_cases hp : q = r.prst_buf
    · rw [hp, hself]
    · rw [hother q hp]
      exact h.unused q hq
  · intro q
    by_cases hq : q = r.prst_buf
    · have hbuf : s.buf r.prst_buf = (r.buf r.prst_buf).clear := setBuf_self
      rw [hq, hbuf, hself, CellBuffer.content_clear]
      rfl
    · have hbuf : s.buf q = r.buf q := setBuf_of_ne hq
      rw [hbuf, hother q hq]
      exact h.content q
  · exact fun q k hk => h.held q k ((hmem q k).mp hk).2
  · intro q
    by_cases hq : q = r.prst_buf
    · rw [hq, hself]
      exact List.Pairwise.nil
    · rw [hother q hq]
      exact h.sorted q
  · exact fun k p q hp hq => h.once k p q ((hmem p k).mp hp).2 ((hmem q k).mp hq).2
  · intro b hb k hk
    rcases (hblock b).mp hb with hb | rfl
    · refine ⟨(h.gone b hb k hk).1, ?_⟩
      exact fun q hq => (h.gone b hb k hk).2 q ((hmem q k).mp hq).2
    · refine ⟨h.held _ k hk, ?_⟩
      intro q hq
      obtain ⟨hne, hq⟩ := (hmem q k).mp hq
      exact hne (h.once k q _ hq hk)
  · intro b hb
    rcases (hblock b).mp hb with hb | rfl
    · exact h.text b hb
    · have hcontent := h.content r.prst_buf
      show (List.flatMap r.line (r.held r.prst_buf)).takeWhile _ <+: _
      rw [← hcontent]
      exact CellBuffer.content_text _ beyond
  · intro b hb
    rcases (hblock b).mp hb with hb | rfl
    · exact h.blocks b hb
    · exact ⟨h.sorted _, CellBuffer.text_no_nul _ beyond⟩
  · intro k hk
    rcases h.all k hk with ⟨q, hq⟩ | ⟨b, hb, hkb⟩
    · by_cases hp : q = r.prst_buf
      · exact .inr ⟨_, (hblock _).mpr (.inr rfl), hp ▸ hq⟩
      · exact .inl ⟨q, (hmem q k).mpr ⟨hp, hq⟩⟩
    · exact .inr ⟨b, (hblock b).mpr (.inl hb), hkb⟩

end LogRing

/-! ### The stream -/

namespace LogFile

variable {f : LogFile}

@[simp] theorem count_disk : f.count.disk = f.disk := by
  unfold count
  split_ifs <;> rfl

theorem shift_frame (date : Int × Int × Int) : ∀ (n : ℕ) (d : Disk LogPath Byte),
    (shift date n d).isOpen = d.isOpen ∧ (shift date n d).sent = d.sent
  | 0, _ => ⟨rfl, rfl⟩
  | n + 1, d => by
    obtain ⟨hopen, hsent⟩ := shift_frame date n (d.rename ⟨date, some (n + 1)⟩ ⟨date, some (n + 2)⟩)
    rw [shift, hopen, hsent]
    exact ⟨Disk.rename_isOpen, Disk.rename_sent⟩

/-- `decis_file` opens the stream only when it is closed, and writes nothing. -/
theorem decisFile_coherent (h : f.disk.Coherent) (date : Int × Int × Int) (ok : Bool) :
    (f.decisFile date ok).disk.Coherent ∧ (f.decisFile date ok).disk.sent = f.disk.sent := by
  unfold decisFile
  dsimp only
  split_ifs with _ hfail hfail
  · exact ⟨Disk.openOn_coherent (h.closed hfail), Disk.openOn_sent⟩
  · refine ⟨Disk.openOn_coherent (Disk.close_isOpen _), ?_⟩
    exact Disk.openOn_sent.trans Disk.close_sent
  · unfold openDate
    rw [count_disk]
    exact ⟨Disk.openOn_coherent (h.closed hfail), Disk.openOn_sent⟩
  · unfold openDate
    rw [count_disk]
    exact ⟨Disk.openOn_coherent (Disk.close_isOpen _), Disk.openOn_sent.trans Disk.close_sent⟩
  · obtain ⟨hopen, hsent⟩ := shift_frame f.date_ (f.log_cnt_ - 1) f.disk.close
    rw [count_disk]
    refine ⟨Disk.openOn_coherent ?_, ?_⟩
    · rw [Disk.rename_isOpen, hopen, Disk.close_isOpen]
    · exact Disk.openOn_sent.trans (Disk.rename_sent.trans (hsent.trans Disk.close_sent))
  · exact ⟨h, rfl⟩

end LogFile

/-! ### Every run -/

section

variable {ι : Type} {s t : Rlog ι}

/-- The logger has not been destroyed. -/
structure Rlog.Sound (s : Rlog ι) : Prop where
  kept : s.ring.Kept
  stream : s.file.disk.Coherent
  writing : s.persister = .writing → s.file.disk.isOpen = true
  sent : s.file.disk.sent = s.ring.persisted.flatMap Block.text
  absent : s.persister = .absent ↔ s.life = .fresh
  joined : s.life.flushes.isSome = true → s.persister = .exited
  past : ∀ i curr_sec, (s.thread i).formats = some curr_sec ∨ (s.thread i).logs = some curr_sec →
    0 < curr_sec

/-- The logger has been destroyed, and its thread has ended. -/
def Rlog.Over (s : Rlog ι) : Prop :=
  (∃ stored, s.life = .returned stored) ∧ (s.persister = .absent ∨ s.persister = .exited)

variable [DecidableEq ι] {raw : ℕ → ℕ → Byte} {localtime : ℕ → Tm} {ev : LogEvent ι}

/-- What a thread has read of the clock is past the epoch. -/
theorem thread_past (hg : (logger raw localtime).guard s ev)
    (hs : (logger raw localtime).step s ev = .ok t)
    (h : ∀ i curr_sec, (s.thread i).formats = some curr_sec ∨ (s.thread i).logs = some curr_sec →
      0 < curr_sec) (i : ι) (curr_sec : ℕ)
    (hi : (t.thread i).formats = some curr_sec ∨ (t.thread i).logs = some curr_sec) : 0 < curr_sec := by
  have hmove : ∀ {j : ι} {c : Producer}, (∀ sec, c.formats = some sec ∨ c.logs = some sec → 0 < sec) →
      (Function.update s.thread j c i).formats = some curr_sec ∨
        (Function.update s.thread j c i).logs = some curr_sec → 0 < curr_sec := by
    intro j c hc hi
    by_cases hij : i = j
    · rw [hij, Function.update_self] at hi
      exact hc _ hi
    · rw [Function.update_of_ne hij] at hi
      exact h i _ hi
  cases ev with
  | enter j tv_sec tv_usec =>
    obtain ⟨thread, rfl, hthread⟩ := enter_inv hs
    dsimp only at hi
    rcases hthread i with hold | hnew
    · rw [hold] at hi
      exact h i _ hi
    · rw [hnew] at hi
      rcases hi with hi | hi <;> cases hi
      exact hg.2
  | reset j =>
    obtain ⟨sec, hj, rfl⟩ := reset_inv hg hs
    refine hmove ?_ hi
    rintro _ (hc | hc) <;> cases hc
    exact h j _ (.inl hj)
  | append j log_line =>
    obtain ⟨sec, -, rfl⟩ := append_inv hg hs
    refine hmove ?_ hi
    rintro _ (hc | hc) <;> cases hc
  | take =>
    rcases take_inv hs with rfl | rfl <;> exact h i _ hi
  | decis ok =>
    obtain ⟨date, -, rfl⟩ := decis_inv hg hs
    exact h i _ hi
  | dtor =>
    rcases dtor_inv hs with ⟨-, rfl⟩ | ⟨-, rfl⟩ <;> exact h i _ hi
  | join =>
    obtain ⟨stored, -, rfl⟩ := join_inv hg hs
    exact h i _ hi
  | flush ok beyond =>
    obtain ⟨stored, -, rfl⟩ := flush_inv hg hs
    unfold Rlog.flush at hi
    split_ifs at hi <;> exact h i _ hi
  | init _ | store | test | lock | wake | write _ | advance =>
    cases hs
    exact h i _ hi

theorem over_step (h : s.Over) (hg : (logger raw localtime).guard s ev)
    (hs : (logger raw localtime).step s ev = .ok t) : t.Over := by
  obtain ⟨⟨stored, hlife⟩, hper⟩ := h
  cases ev with
  | enter i tv_sec tv_usec =>
    obtain ⟨thread, rfl, -⟩ := enter_inv hs
    exact ⟨⟨stored, hlife⟩, hper⟩
  | reset i =>
    obtain ⟨curr_sec, -, rfl⟩ := reset_inv hg hs
    exact ⟨⟨stored, hlife⟩, hper⟩
  | append i log_line =>
    obtain ⟨curr_sec, -, rfl⟩ := append_inv hg hs
    exact ⟨⟨stored, hlife⟩, hper⟩
  | init _ | store =>
    have hlife' : s.life = _ := hg
    rw [hlife] at hlife'
    cases hlife'
  | test | lock | wake | take | write _ | advance =>
    have hper' : s.persister = _ := hg
    rw [hper'] at hper
    rcases hper with hper | hper <;> cases hper
  | decis ok =>
    obtain ⟨date, hper', -⟩ := decis_inv hg hs
    rw [hper'] at hper
    rcases hper with hper | hper <;> cases hper
  | dtor =>
    rcases hg with hlife' | hlife' <;>
      rw [hlife] at hlife' <;> cases hlife'
  | join =>
    obtain ⟨stored', hlife', -⟩ := join_inv hg hs
    rw [hlife] at hlife'
    cases hlife'
  | flush ok beyond =>
    obtain ⟨stored', hlife', -⟩ := flush_inv hg hs
    rw [hlife] at hlife'
    cases hlife'

omit [DecidableEq ι] in
/-- The persister goes on. -/
theorem Rlog.Sound.go (h : s.Sound) {p p' : Persister} (hp : s.persister = p)
    (hne : p ≠ .absent ∧ p ≠ .exited) {ring : LogRing} {file : LogFile} (hp' : p' ≠ .absent)
    (hkept : ring.Kept) (hstream : file.disk.Coherent)
    (hwriting : p' = .writing → file.disk.isOpen = true)
    (hsent : file.disk.sent = ring.persisted.flatMap Block.text) :
    Sound { s with persister := p', ring := ring, file := file } := by
  have hfresh : s.life ≠ .fresh := by
    rw [Ne, ← h.absent, hp]
    exact hne.1
  refine ⟨hkept, hstream, hwriting, hsent, iff_of_false hp' hfresh, ?_, h.past⟩
  intro hjoined
  have hexited := h.joined hjoined
  rw [hp] at hexited
  exact absurd hexited hne.2

theorem flush_over (h : s.Sound) {ok : Bool} {beyond : Bytes}
    (hg : (logger raw localtime).guard s (.flush ok beyond))
    (hs : (logger raw localtime).step s (.flush ok beyond) = .ok t) : t.Over := by
  obtain ⟨stored, hlife, rfl⟩ := flush_inv hg hs
  refine ⟨⟨stored, rfl⟩, .inr ?_⟩
  have hper : s.persister = .exited := h.joined (by rw [hlife]; rfl)
  unfold Rlog.flush
  split_ifs <;> exact hper

/-- **What every step keeps until the logger has been destroyed.** -/
theorem sound_step (h : s.Sound) (hg : (logger raw localtime).guard s ev)
    (hs : (logger raw localtime).step s ev = .ok t) : t.Sound ∨ t.Over := by
  have hpast := thread_past hg hs h.past
  cases ev with
  | init ok =>
    cases hs
    exact .inl ⟨h.kept, h.stream, by simp, h.sent, by simp, by simp [LogLife.flushes], hpast⟩
  | store =>
    have hlife : s.life = .created := hg
    have hper : s.persister ≠ .absent := by rw [Ne, h.absent, hlife]; simp
    cases hs
    exact .inl ⟨h.kept, h.stream, h.writing, h.sent, by simp [hper], by simp [LogLife.flushes], hpast⟩
  | enter i tv_sec tv_usec =>
    obtain ⟨thread, rfl, -⟩ := enter_inv hs
    exact .inl ⟨h.kept, h.stream, h.writing, h.sent, h.absent, h.joined, hpast⟩
  | reset i =>
    obtain ⟨curr_sec, -, rfl⟩ := reset_inv hg hs
    exact .inl ⟨h.kept.lst 0, h.stream, h.writing, h.sent, h.absent, h.joined, hpast⟩
  | append i log_line =>
    obtain ⟨curr_sec, -, rfl⟩ := append_inv hg hs
    refine .inl ⟨h.kept.critical, h.stream, h.writing, ?_, h.absent, h.joined, hpast⟩
    show _ = (s.ring.critical raw log_line curr_sec).persisted.flatMap _
    rw [LogRing.critical_same.1]
    exact h.sent
  | test =>
    cases hs
    refine .inl (h.go (show s.persister = .top from hg) (by simp) ?_ h.kept h.stream ?_ h.sent)
    · split_ifs <;> simp
    · split_ifs <;> simp
  | lock =>
    cases hs
    refine .inl (h.go (show s.persister = .entering from hg) (by simp) ?_ h.kept h.stream ?_ h.sent)
    · split_ifs <;> simp
    · split_ifs <;> simp
  | wake =>
    cases hs
    exact .inl (h.go (show s.persister = .waiting from hg) (by simp) (by simp) h.kept h.stream (by simp)
      h.sent)
  | take =>
    have hper : s.persister = .taking := hg
    rcases take_inv hs with rfl | rfl
    · exact .inl (h.go hper (by simp) (by simp) h.kept h.stream (by simp) h.sent)
    · refine .inl (h.go hper (by simp) (by simp) h.kept.take h.stream (by simp) ?_)
      rw [LogRing.take_persisted]
      exact h.sent
  | decis ok =>
    obtain ⟨date, hper, rfl⟩ := decis_inv hg hs
    obtain ⟨hstream, hsent⟩ := LogFile.decisFile_coherent h.stream date ok
    refine .inl (h.go hper (by simp) ?_ h.kept hstream ?_ (hsent.trans h.sent))
    · split_ifs <;> simp
    · split_ifs with hopen
      · exact fun _ => hopen
      · simp
  | write beyond =>
    have hper : s.persister = .writing := hg
    cases hs
    obtain ⟨hstream, -, hsent, -⟩ := Disk.write_open _ h.stream (h.writing hper)
    refine .inl (h.go hper (by simp) (by simp) (h.kept.persist beyond) hstream (by simp) ?_)
    rw [hsent, h.sent]
    show _ = (s.ring.persisted ++ [_]).flatMap _
    rw [List.flatMap_append, List.flatMap_singleton]
  | advance =>
    cases hs
    exact .inl (h.go (show s.persister = .advancing from hg) (by simp) (by simp) h.kept.advance h.stream
      (by simp) h.sent)
  | dtor =>
    rcases dtor_inv hs with ⟨hper, rfl⟩ | ⟨hper, rfl⟩
    · exact .inr ⟨⟨_, rfl⟩, .inl hper⟩
    · exact .inl ⟨h.kept, h.stream, h.writing, h.sent, by simp [hper], by simp [LogLife.flushes], hpast⟩
  | join =>
    obtain ⟨stored, hlife, rfl⟩ := join_inv hg hs
    have hper : s.persister = .exited := hg.2
    exact .inl ⟨h.kept, h.stream, h.writing, h.sent, by simp [hper], fun _ => hper, hpast⟩
  | flush ok beyond => exact .inr (flush_over h hg hs)

/-- What a step keeps until then beside that. -/
theorem Rlog.Sound.and_step (h : s.Sound) (hg : (logger raw localtime).guard s ev)
    (hs : (logger raw localtime).step s ev = .ok t) {P : Prop} (hP : P ∨ t.Over) :
    P ∧ t.Sound ∨ t.Over := by
  rcases hP with hP | hover
  · rcases sound_step h hg hs with hsound | hover
    · exact .inl ⟨hP, hsound⟩
    · exact .inr hover
  · exact .inr hover

omit [DecidableEq ι] in
theorem start_sound (one_buff_len now : ℕ) (files : LogPath → Option Bytes) :
    (Rlog.start raw localtime one_buff_len now files : Rlog ι).Sound :=
  ⟨LogRing.start_kept raw one_buff_len, rfl, by simp [Rlog.start], rfl, by simp [Rlog.start],
    by simp [Rlog.start, LogLife.flushes], by simp [Rlog.start, Producer.formats, Producer.logs]⟩

theorem logger_sound {one_buff_len now : ℕ} {files : LogPath → Option Bytes} {es : List (LogEvent ι)}
    (h : (logger raw localtime).Run (.start raw localtime one_buff_len now files) es s) :
    s.Sound ∨ s.Over := by
  refine h.invariant (I := fun s => s.Sound ∨ s.Over) ?_ (.inl (start_sound ..))
  intro s t ev hi hg hs
  rcases hi with hi | hi
  · exact sound_step hi hg hs
  · exact .inr (over_step hi hg hs)

end

end MuduoSe
