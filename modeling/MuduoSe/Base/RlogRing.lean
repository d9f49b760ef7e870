/-
# The ring of the logger

From the buffer that is to be persisted next, the ring of buffers is `full ++ free`: first the FULL
buffers in the order they were filled, then the current one, if any is FREE, and the other FREE ones
(`LogRing.Laid`, `LogRing.Ordered`).

* `orderly_iff`: at every take of a run the FULL buffers are the segment from `prst_buf` to `cur_buf`
  and the lines are persisted in their order, if and only if no buffer was inserted between a
  `prst_buf->persist(fp_)` and the advance of `prst_buf` after it. An insertion at that moment goes
  behind `prst_buf` itself, and the advance then leads to the new buffer.
* `new_buffer_first`: the three buffers of the start are enough for that.

Key definitions: `LogRing.Laid`, `LogRing.Segment`, `Rlog.Orderly`, `Rlog.Apart`.
Key theorems: `Laid.critical`, `good_step`, `broken_step`, `orderly_iff`.
-/
import Mathlib.Data.List.TakeWhile
import MuduoSe.Base.RlogLines

namespace MuduoSe

namespace LogRing

variable {r s : LogRing} {full free rest : List ℕ} {b c : ℕ} {log_line : Bytes} {curr_sec : ℕ}
  {raw : ℕ → ℕ → Byte}

/-! ### The shape of the ring -/

/-- The ring, cut open before the first FULL buffer. -/
structure Shape (r : LogRing) (full free : List ℕ) : Prop where
  nodup : (full ++ free).Nodup
  bound : ∀ p ∈ full ++ free, p < r.fresh
  count : (full ++ free).length + 1 = r.fresh
  two : 2 ≤ (full ++ free).length
  linked : RingOf r.next (full ++ free)
  isFull : ∀ p ∈ full, r.status p = .FULL
  isFree : ∀ p ∈ free, r.status p = .FREE

/-- The current buffer is the first FREE one, or, if there is none, the first of all. -/
structure Laid (r : LogRing) (full free : List ℕ) : Prop extends Shape r full free where
  cur : (free ++ full).head? = some r.cur_buf

/-- The lines are in the order of the ring, behind those that were persisted. -/
structure Ordered (r : LogRing) (full free : List ℕ) : Prop where
  spare : ∀ p ∈ free.tail, r.held p = []
  order : r.persisted.flatMap Block.ids ++ (full ++ free).flatMap r.held = List.range r.lines.length

theorem Shape.congr (h : r.Shape full free) (hnext : ∀ p, s.next p = r.next p)
    (hstatus : ∀ p, s.status p = r.status p) (hfresh : s.fresh = r.fresh) : s.Shape full free := by
  refine ⟨h.nodup, ?_, ?_, h.two, h.linked.congr fun p _ => hnext p, ?_, ?_⟩
  · rw [hfresh]
    exact h.bound
  · rw [hfresh]
    exact h.count
  · intro p hp
    rw [hstatus]
    exact h.isFull p hp
  · intro p hp
    rw [hstatus]
    exact h.isFree p hp

theorem Laid.congr (h : r.Laid full free) (hnext : ∀ p, s.next p = r.next p)
    (hstatus : ∀ p, s.status p = r.status p) (hfresh : s.fresh = r.fresh)
    (hcur : s.cur_buf = r.cur_buf) : s.Laid full free :=
  ⟨h.toShape.congr hnext hstatus hfresh, hcur ▸ h.cur⟩

theorem Laid.cur_eq (h : r.Laid full (c :: rest)) : r.cur_buf = c := (Option.some.inj h.cur).symm

/-- The first FREE buffer becomes FULL. -/
theorem Shape.fill (h : r.Shape full (c :: rest)) :
    (r.setStatus c .FULL).Shape (full ++ [c]) rest := by
  have hlist : full ++ [c] ++ rest = full ++ c :: rest := by simp
  have hc : c ∉ rest := by
    have hnodup := h.nodup.of_append_right
    exact (List.nodup_cons.mp hnodup).1
  refine ⟨?_, ?_, ?_, ?_, ?_, ?_, ?_⟩
  · exact hlist ▸ h.nodup
  · exact hlist ▸ h.bound
  · exact hlist ▸ h.count
  · exact hlist ▸ h.two
  · exact hlist ▸ h.linked.congr fun p _ => setStatus_next
  · intro p hp
    rw [setStatus_status]
    rcases List.mem_append.mp hp with hp | hp
    · split_ifs
      · rfl
      · exact h.isFull p hp
    · rw [if_pos (List.mem_singleton.mp hp)]
  · intro p hp
    rw [setStatus_status, if_neg (fun he : p = c => hc (he ▸ hp))]
    exact h.isFree p (List.mem_cons_of_mem _ hp)

/-- The buffer behind the last is the first. -/
theorem Shape.next_last (h : r.Shape (full ++ [c]) []) : (full ++ [c]).head? = some (r.next c) := by
  have hlinked := h.linked
  rw [List.append_nil] at hlinked
  exact (RingOf.snoc_iff.mp hlinked).2

/-- A new buffer is inserted when all are FULL, behind the last. -/
theorem Shape.grow (h : r.Shape (full ++ [c]) []) (hcur : r.cur_buf = c) :
    (r.grow raw (r.next c)).Shape (full ++ [c]) [r.fresh] := by
  have hbound := h.bound
  have hcount := h.count
  have htwo := h.two
  have hlinked := h.linked
  have hnodup := h.nodup
  rw [List.append_nil] at hbound hcount htwo hlinked hnodup
  have hnew : r.fresh ∉ full ++ [c] := fun hmem => lt_irrefl _ (hbound _ hmem)
  have hc : c ∉ full := fun hmem => (List.nodup_append.mp hnodup).2.2 c hmem c (by simp) rfl
  have hne : r.fresh ≠ c := fun he => hnew (he ▸ by simp)
  have hfresh : (r.grow raw (r.next c)).fresh = r.fresh + 1 := rfl
  refine ⟨?_, ?_, ?_, ?_, ?_, ?_, ?_⟩
  · rw [List.nodup_append]
    refine ⟨hnodup, List.nodup_singleton _, ?_⟩
    rintro p hp q hq rfl
    exact hnew (List.mem_singleton.mp hq ▸ hp)
  · intro p hp
    rw [hfresh]
    rcases List.mem_append.mp hp with hp | hp
    · exact Nat.lt_succ_of_lt (hbound p hp)
    · rw [List.mem_singleton.mp hp]
      exact Nat.lt_succ_self _
  · rw [List.length_append, hfresh, ← hcount]
    rfl
  · rw [List.length_append]
    omega
  · refine hlinked.insert ?_ ?_ ?_
    · intro p hp
      rw [grow_next, hcur, if_neg (fun he : p = c => hc (he ▸ hp)),
        if_neg (fun he : p = r.fresh => hnew (he ▸ List.mem_append_left _ hp))]
    · rw [grow_next, if_pos hcur.symm]
    · rw [grow_next, hcur, if_neg hne, if_pos rfl]
  · intro p hp
    rw [grow_status, if_neg (fun he : p = r.fresh => hnew (he ▸ hp))]
    exact h.isFull p hp
  · intro p hp
    rw [grow_status, if_pos (List.mem_singleton.mp hp)]

/-! ### A critical section of `try_append` -/

/-- When the current buffer is FULL, the one behind it is, too. -/
def NextFull (r : LogRing) : Prop :=
  let r := r.setStatus r.cur_buf .FULL
  r.status (r.next r.cur_buf) = .FULL

/-- The critical section inserts a buffer. -/
def Grows (r : LogRing) (log_line : Bytes) : Prop :=
  r.status r.cur_buf = .FREE ∧ (r.buf r.cur_buf).availLen < log_line.length ∧ r.NextFull ∧ ¬r.Exhausted

instance (r : LogRing) : Decidable r.NextFull := inferInstanceAs (Decidable (_ = _))

instance (r : LogRing) (log_line : Bytes) : Decidable (r.Grows log_line) :=
  inferInstanceAs (Decidable (_ ∧ _ ∧ _ ∧ _))

/-- On to the next buffer: it is FREE, or a new one is inserted, or none is left. -/
theorem Laid.turnOver (h : r.Laid full (c :: rest)) (raw : ℕ → ℕ → Byte) (curr_sec : ℕ) :
    (rest ≠ [] ∧ ¬r.NextFull ∧ (r.turnOver raw curr_sec).Laid (full ++ [c]) rest) ∨
    (rest = [] ∧ r.NextFull ∧ ¬r.Exhausted ∧ (r.turnOver raw curr_sec).Laid (full ++ [c]) [r.fresh]) ∨
    (rest = [] ∧ r.NextFull ∧ r.Exhausted ∧ (r.turnOver raw curr_sec).Laid (full ++ [c]) [] ∧
      (r.turnOver raw curr_sec).lst_lts = curr_sec) := by
  have hcur := h.cur_eq
  have hs := h.toShape.fill
  rw [← hcur] at hs
  unfold NextFull LogRing.turnOver
  dsimp only
  set s := r.setStatus r.cur_buf .FULL with hsdef
  have hscur : s.cur_buf = r.cur_buf := rfl
  rcases rest with _ | ⟨q, rest⟩
  · have hlast := hs.next_last
    have hnext : s.status (s.next s.cur_buf) = .FULL :=
      hs.isFull _ (List.mem_of_head? hlast)
    rw [if_pos hnext]
    split_ifs with hex
    · refine .inr (.inr ⟨rfl, hnext, hex, ?_, rfl⟩)
      rw [← hcur]
      exact ⟨hs.congr (fun _ => rfl) (fun _ => rfl) rfl, hlast⟩
    · refine .inr (.inl ⟨rfl, hnext, hex, ?_⟩)
      rw [← hcur]
      exact ⟨hs.grow hscur, by rw [grow_cur]; rfl⟩
  · have hq : s.next s.cur_buf = q := by
      calc s.next s.cur_buf = r.next r.cur_buf := setStatus_next
        _ = q := by
          rw [hcur]
          exact h.linked.next_mid
    have hnext : ¬s.status (s.next s.cur_buf) = .FULL := by
      rw [hq, hs.isFree q (by simp)]
      simp
    rw [if_neg hnext]
    refine .inl ⟨by simp, hnext, ?_⟩
    rw [hq, ← hcur]
    exact ⟨hs.congr (fun _ => rfl) (fun _ => rfl) rfl, rfl⟩

theorem Laid.put (h : r.Laid full free) (log_line : Bytes) : (r.put log_line).Laid full free :=
  h.congr (fun _ => put_next) (fun _ => put_status) put_same.2.2.1 put_same.1

/-- The new line is behind all others. -/
theorem Ordered.put (h : r.Ordered full (c :: rest)) (hl : r.Laid full (c :: rest)) (log_line : Bytes) :
    (r.put log_line).Ordered full (c :: rest) := by
  rcases r.put_cases log_line with ⟨-, hput⟩ | ⟨-, hput⟩
  · rw [hput]
    exact h
  rw [hput]
  set held := Function.update r.held r.cur_buf (r.held r.cur_buf ++ [r.lines.length])
  have hcur := hl.cur_eq
  have hself : held c = r.held c ++ [r.lines.length] := hcur ▸ Function.update_self ..
  have hother : ∀ p, p ≠ c → held p = r.held p := fun p hp => Function.update_of_ne (hcur ▸ hp) ..
  obtain ⟨-, hrest, hdisj⟩ := List.nodup_append.mp hl.nodup
  have hfull : full.flatMap held = full.flatMap r.held :=
    List.flatMap_congr fun p hp => hother p (hdisj p hp c (by simp))
  have hspare : ∀ p ∈ rest, held p = [] := by
    intro p hp
    have hne : p ≠ c := fun he => (List.nodup_cons.mp hrest).1 (he ▸ hp)
    rw [hother p hne]
    exact h.spare p hp
  have hempty : rest.flatMap r.held = [] := List.flatMap_eq_nil_iff.mpr h.spare
  have horder := h.order
  rw [List.flatMap_append, List.flatMap_cons, hempty, List.append_nil] at horder
  refine ⟨hspare, ?_⟩
  show r.persisted.flatMap Block.ids ++ (full ++ c :: rest).flatMap held =
    List.range (r.lines ++ [log_line]).length
  rw [List.flatMap_append, List.flatMap_cons, List.flatMap_eq_nil_iff.mpr hspare, hfull, hself,
    List.append_nil, List.length_append, List.length_singleton, List.range_succ, ← horder]
  simp only [List.append_assoc]

theorem Ordered.turnOver (h : r.Ordered full (c :: rest)) :
    (r.turnOver raw curr_sec).Ordered (full ++ [c]) rest := by
  have hlist : full ++ [c] ++ rest = full ++ c :: rest := by simp
  refine ⟨?_, ?_⟩
  · intro p hp
    rw [turnOver_held]
    exact h.spare p (List.mem_of_mem_tail hp)
  · rw [turnOver_held, turnOver_lines, turnOver_same.1, hlist]
    exact h.order

/-- A buffer without lines comes last. -/
theorem Ordered.grow (h : r.Ordered full []) (hc : r.held c = []) : r.Ordered full [c] := by
  refine ⟨by simp, ?_⟩
  have horder := h.order
  rw [List.append_nil] at horder
  rw [List.flatMap_append, List.flatMap_singleton, hc, List.append_nil]
  exact horder

/-- What a critical section makes of the ring: FULL buffers stay where they are, and what comes
behind them; only a new buffer comes last. -/
structure Filled (r s : LogRing) (log_line : Bytes) (full free full' free' : List ℕ) : Prop where
  laid : s.Laid full' free'
  ordered : r.Ordered full free → s.Ordered full' free'
  prefix_full : full <+: full'
  prefix_all : full ++ free <+: full' ++ free'
  same : ¬r.Grows log_line → full' ++ free' = full ++ free
  grown : r.Grows log_line → free = [r.cur_buf] ∧ full' = full ++ [r.cur_buf] ∧ free' = [r.fresh]

theorem Laid.critical (h : r.Laid full free) (hkept : r.Kept) (hsec : 0 < curr_sec)
    (raw : ℕ → ℕ → Byte) (log_line : Bytes) : ∃ full' free',
      Filled r (r.critical raw log_line curr_sec) log_line full free full' free' := by
  rcases free with _ | ⟨c, rest⟩
  · -- All buffers are FULL, and the line is dropped.
    have hfull : r.status r.cur_buf = .FULL := h.isFull _ (List.mem_of_head? h.cur)
    have hgrows : ¬r.Grows log_line := by
      rintro ⟨hfree, -⟩
      rw [hfull] at hfree
      cases hfree
    have hcrit : r.critical raw log_line curr_sec = { r with lst_lts := curr_sec } := by
      unfold LogRing.critical
      rw [hfull, if_neg (by simp)]
    rw [hcrit]
    exact ⟨full, [], h.congr (fun _ => rfl) (fun _ => rfl) rfl rfl, fun ho => ⟨ho.spare, ho.order⟩,
      List.prefix_rfl, List.prefix_rfl, fun _ => rfl, fun hg => absurd hg hgrows⟩
  have hcur := h.cur_eq
  have hfree : r.status r.cur_buf = .FREE := h.isFree _ (by rw [hcur]; simp)
  by_cases hfits : log_line.length ≤ (r.buf r.cur_buf).availLen
  · have hgrows : ¬r.Grows log_line := fun hg => absurd hfits (not_le.mpr hg.2.1)
    have hcrit : r.critical raw log_line curr_sec = r.put log_line := by
      unfold LogRing.critical
      rw [if_pos hfree, if_pos hfits]
    rw [hcrit]
    exact ⟨full, c :: rest, h.put log_line, fun ho => ho.put h log_line, List.prefix_rfl,
      List.prefix_rfl, fun _ => rfl, fun hg => absurd hg hgrows⟩
  have hcrit : r.critical raw log_line curr_sec =
      if (r.turnOver raw curr_sec).lst_lts = 0 then (r.turnOver raw curr_sec).put log_line
      else r.turnOver raw curr_sec := by
    unfold LogRing.critical
    rw [if_pos hfree, if_neg hfits]
  have hlist : full ++ c :: rest = full ++ [c] ++ rest := by simp
  rw [hcrit]
  rcases h.turnOver raw curr_sec with
    ⟨hne, hnext, hl⟩ | ⟨rfl, hnext, hex, hl⟩ | ⟨rfl, hnext, hex, hl, hlst⟩
  · obtain ⟨q, rest, rfl⟩ := List.exists_cons_of_ne_nil hne
    have hgrows : ¬r.Grows log_line := fun hg => hnext hg.2.2.1
    refine ⟨full ++ [c], q :: rest, ?_, ?_, List.prefix_append _ _, ?_, fun _ => hlist.symm,
      fun hg => absurd hg hgrows⟩
    · split_ifs
      · exact hl.put log_line
      · exact hl
    · intro ho
      split_ifs
      · exact ho.turnOver.put hl log_line
      · exact ho.turnOver
    · rw [hlist]
  · have hgrows : r.Grows log_line := ⟨hfree, not_le.mp hfits, hnext, hex⟩
    have hnew : (r.turnOver raw curr_sec).held r.fresh = [] := by
      rw [turnOver_held]
      exact hkept.unused _ (le_refl _)
    refine ⟨full ++ [c], [r.fresh], ?_, ?_, List.prefix_append _ _, List.prefix_append _ _,
      fun hg => absurd hgrows hg, fun _ => by rw [hcur]; exact ⟨rfl, rfl, rfl⟩⟩
    · split_ifs
      · exact hl.put log_line
      · exact hl
    · intro ho
      split_ifs
      · exact (ho.turnOver.grow hnew).put hl log_line
      · exact ho.turnOver.grow hnew
  · have hgrows : ¬r.Grows log_line := fun hg => hg.2.2.2 hex
    rw [if_neg (by omega)]
    refine ⟨full ++ [c], [], hl, fun ho => ho.turnOver, List.prefix_append _ _, ?_, fun _ => hlist.symm,
      fun hg => absurd hg hgrows⟩
    simp

/-! ### The persister -/

/-- At a timeout the current buffer becomes FULL, and the next one is FREE. -/
theorem Laid.take (h : r.Laid full free) (hprst : (full ++ free).head? = some r.prst_buf) :
    ∃ full' free', r.take.Laid full' free' ∧ full' ++ free' = full ++ free ∧
      full'.head? = some r.prst_buf ∧ r.take.prst_buf = r.prst_buf ∧
      (r.Ordered full free → r.take.Ordered full' free') ∧
      (r.status r.prst_buf = .FREE → r.take.status r.take.cur_buf = .FREE) := by
  unfold LogRing.take
  rcases full with _ | ⟨p, full⟩
  · rcases free with _ | ⟨c, _ | ⟨q, rest⟩⟩
    · cases hprst
    · exact absurd h.two (by simp)
    have hcur := h.cur_eq
    have hc : r.prst_buf = c := (Option.some.inj hprst).symm
    have hfree : r.status r.prst_buf = .FREE := h.isFree _ (by rw [hc]; simp)
    have hs := h.toShape.fill
    have hnext : (r.setStatus r.cur_buf .FULL).next r.cur_buf = q := by
      rw [setStatus_next, hcur]
      exact h.linked.next_mid (l := [])
    rw [if_pos hfree]
    dsimp only
    rw [show LogRing.cur_buf (r.setStatus r.cur_buf .FULL) = r.cur_buf from rfl, hnext, hcur]
    refine ⟨[c], q :: rest, ⟨hs.congr (fun _ => rfl) (fun _ => rfl) rfl, rfl⟩, rfl, hprst, rfl, ?_, ?_⟩
    · intro ho
      exact ⟨fun p hp => ho.spare p (List.mem_of_mem_tail hp), ho.order⟩
    · exact fun _ => hs.isFree q (by simp)
  · have hp : r.prst_buf = p := (Option.some.inj hprst).symm
    have hfull : r.status r.prst_buf = .FULL := h.isFull _ (by rw [hp]; simp)
    rw [hfull, if_neg (by simp)]
    refine ⟨p :: full, free, h, rfl, hprst, rfl, fun ho => ho, ?_⟩
    intro hfree
    cases hfree

/-- The buffer that was persisted is the last of the ring. -/
theorem Laid.persist (h : r.Laid (c :: full) free) (hc : r.prst_buf = c) (beyond : Bytes) :
    (r.persist beyond).Laid full (free ++ [c]) := by
  have hperm : (full ++ (free ++ [c])).Perm (c :: full ++ free) := by
    rw [← List.append_assoc]
    exact List.perm_append_singleton c _
  have hnext : ∀ p, (r.persist beyond).next p = r.next p :=
    fun p => setBuf_same CellBuffer.next rfl
  have hstatus : ∀ p, (r.persist beyond).status p = if p = c then .FREE else r.status p :=
    fun p => hc ▸ setBuf_view CellBuffer.status
  have hrest : ∀ p ∈ full ++ free, p ≠ c := by
    rintro p hp rfl
    exact (List.nodup_cons.mp h.nodup).1 hp
  refine ⟨⟨hperm.nodup_iff.mpr h.nodup, ?_, ?_, ?_, ?_, ?_, ?_⟩, ?_⟩
  · exact fun p hp => h.bound p (hperm.mem_iff.mp hp)
  · exact hperm.length_eq ▸ h.count
  · exact hperm.length_eq ▸ h.two
  · rw [← List.append_assoc]
    exact (h.linked.rotate (l := [c])).congr fun p _ => hnext p
  · intro p hp
    rw [hstatus, if_neg (hrest p (List.mem_append_left _ hp))]
    exact h.isFull p (List.mem_cons_of_mem _ hp)
  · intro p hp
    rw [hstatus]
    split_ifs with hpc
    · rfl
    · rcases List.mem_append.mp hp with hp | hp
      · exact h.isFree p hp
      · exact absurd (List.mem_singleton.mp hp) hpc
  · rcases free with _ | ⟨q, rest⟩ <;> exact h.cur

theorem Ordered.persist (h : r.Ordered (c :: full) free) (hl : r.Laid (c :: full) free)
    (hc : r.prst_buf = c) (beyond : Bytes) : (r.persist beyond).Ordered full (free ++ [c]) := by
  have hself : (r.persist beyond).held c = [] := hc ▸ Function.update_self ..
  have hother : ∀ p ∈ full ++ free, (r.persist beyond).held p = r.held p := by
    intro p hp
    refine Function.update_of_ne ?_ ..
    rintro rfl
    exact (List.nodup_cons.mp hl.nodup).1 (hc ▸ hp)
  refine ⟨?_, ?_⟩
  · rcases free with _ | ⟨q, rest⟩
    · simp
    · intro p hp
      rcases List.mem_append.mp hp with hp | hp
      · rw [hother p (by simp [hp])]
        exact h.spare p hp
      · rw [List.mem_singleton.mp hp, hself]
  · have hlist : (full ++ (free ++ [c])).flatMap (r.persist beyond).held =
        (full ++ free).flatMap r.held := by
      rw [← List.append_assoc, List.flatMap_append, List.flatMap_congr hother, List.flatMap_singleton,
        hself, List.append_nil]
    show (r.persisted ++ [_]).flatMap Block.ids ++ _ = List.range r.lines.length
    rw [hlist, List.flatMap_append, List.flatMap_singleton, ← h.order, List.append_assoc, hc]
    rfl

/-! ### The segment of FULL buffers -/

/-- The FULL buffers are those from `prst_buf` up to `cur_buf`; all or none, if these are the same. -/
def Segment (r : LogRing) : Prop :=
  (r.prst_buf = r.cur_buf →
    (∀ p ∈ r.ring, r.status p = .FULL) ∨ ∀ p ∈ r.ring, r.status p = .FREE) ∧
  (r.prst_buf ≠ r.cur_buf →
    ∀ p ∈ r.ring, (r.status p = .FULL ↔ p ∈ r.ring.takeWhile (· ≠ r.cur_buf)))

/-- The lines that were persisted and those in the buffers from `prst_buf` on are all lines in their
order. -/
def InOrder (r : LogRing) : Prop :=
  r.persisted.flatMap Block.ids ++ r.ring.flatMap r.held = List.range r.lines.length

instance (r : LogRing) : Decidable r.Segment := inferInstanceAs (Decidable ((_ → _) ∧ (_ → _)))

instance (r : LogRing) : Decidable r.InOrder := inferInstanceAs (Decidable (_ = _))

theorem Shape.ring (h : r.Shape full free) {l m : List ℕ} (hlist : full ++ free = l ++ m)
    (hprst : m.head? = some r.prst_buf) : r.ring = m ++ l := by
  obtain ⟨m, rfl⟩ := List.head?_eq_some_iff.mp hprst
  have hlinked := h.linked
  have hcount := h.count
  rw [hlist] at hlinked hcount
  have hlen : r.fresh - 1 = (r.prst_buf :: (m ++ l)).length := by
    simp only [List.length_append, List.length_cons] at hcount ⊢
    omega
  unfold LogRing.ring
  rw [hlen]
  exact hlinked.rotate.iterate

theorem mem_takeWhile_ne {l m : List ℕ} {p : ℕ} (hc : c ∈ l) (hp : p ∈ (l ++ m).takeWhile (· ≠ c)) :
    p ∈ l := by
  rw [List.takeWhile_append] at hp
  split_ifs at hp with hlen
  · have hall := (List.takeWhile_prefix _).eq_of_length hlen
    rw [List.takeWhile_eq_self_iff] at hall
    exact absurd rfl (of_decide_eq_true (hall c hc))
  · exact List.takeWhile_subset _ hp

/-- **The FULL buffers are the segment**, if `prst_buf` is the first of the ring. -/
theorem Laid.segment (h : r.Laid full free) (hprst : (full ++ free).head? = some r.prst_buf) :
    r.ring = full ++ free ∧ r.Segment := by
  have hring : r.ring = full ++ free := by
    have hcut := h.toShape.ring (l := []) (m := full ++ free) rfl hprst
    rwa [List.append_nil] at hcut
  refine ⟨hring, ?_⟩
  unfold Segment
  rw [hring]
  rcases full with _ | ⟨p, full⟩
  · have heq : r.prst_buf = r.cur_buf := by
      have hcur := h.cur
      rw [List.append_nil, ← List.nil_append free, hprst] at hcur
      exact Option.some.inj hcur
    exact ⟨fun _ => .inr h.isFree, fun hne => absurd heq hne⟩
  rcases free with _ | ⟨c, rest⟩
  · have heq : r.prst_buf = r.cur_buf := by
      have hcur := h.cur
      rw [List.nil_append, ← List.append_nil (p :: full), hprst] at hcur
      exact Option.some.inj hcur
    rw [List.append_nil]
    exact ⟨fun _ => .inl h.isFull, fun hne => absurd heq hne⟩
  · have hcur := h.cur_eq
    obtain ⟨-, -, hdisj⟩ := List.nodup_append.mp h.nodup
    have hne : ∀ q ∈ p :: full, q ≠ c := fun q hq => hdisj q hq c (by simp)
    have hp : r.prst_buf = p := (Option.some.inj hprst).symm
    rw [hp, hcur]
    refine ⟨fun heq => absurd heq (hne p (by simp)), fun _ => ?_⟩
    rw [List.takeWhile_append_of_pos (by simpa using hne), List.takeWhile_cons_of_neg (by simp),
      List.append_nil]
    intro q hq
    constructor
    · intro hfull
      rcases List.mem_append.mp hq with hq | hq
      · exact hq
      · rw [h.isFree q hq] at hfull
        cases hfull
    · exact h.isFull q

/-- FULL buffers before `prst_buf` are in no segment that begins there. -/
theorem Laid.not_segment {late wait : List ℕ} (h : r.Laid (late ++ wait) free) (hlate : late ≠ [])
    (hprst : (wait ++ free).head? = some r.prst_buf) : ¬r.Segment := by
  have hring : r.ring = wait ++ free ++ late := h.toShape.ring (by simp) hprst
  obtain ⟨x, late, rfl⟩ := List.exists_cons_of_ne_nil hlate
  have hx : r.status x = .FULL := h.isFull x (by simp)
  have hxring : x ∈ r.ring := by rw [hring]; simp
  have hxout : x ∉ wait ++ free := by
    have hnodup := h.nodup
    rw [List.append_assoc] at hnodup
    exact fun hmem => (List.nodup_append.mp hnodup).2.2 x (by simp) x hmem rfl
  have hprstin : r.prst_buf ∈ wait ++ free := List.mem_of_head? hprst
  rintro ⟨hsame, hdiff⟩
  rcases free with _ | ⟨c, rest⟩
  · -- No buffer is FREE, and `cur_buf` is `x`.
    have hcur : r.cur_buf = x := (Option.some.inj h.cur).symm
    have hne : r.prst_buf ≠ r.cur_buf := by
      rintro he
      exact hxout (hcur ▸ he ▸ hprstin)
    have hmem := (hdiff hne x hxring).mp hx
    rw [hcur] at hmem
    have hne := List.mem_takeWhile_imp hmem
    exact absurd rfl (of_decide_eq_true hne)
  · have hcur := h.cur_eq
    have hc : r.status c = .FREE := h.isFree c (by simp)
    have hcring : c ∈ r.ring := by rw [hring]; simp
    by_cases he : r.prst_buf = r.cur_buf
    · rcases hsame he with hall | hall
      · rw [hall c hcring] at hc
        cases hc
      · rw [hall x hxring] at hx
        cases hx
    · have hmem := (hdiff he x hxring).mp hx
      rw [hring, hcur] at hmem
      exact hxout (mem_takeWhile_ne (by simp) hmem)

end LogRing

/-! ### Every run -/

section

variable {ι : Type} {s t : Rlog ι}

namespace Rlog

/-- The state in which the persister takes a buffer is in order: the FULL buffers are a segment; the
lines were persisted in the order in which they were accepted, each block beginning with the text of
its own, and the stream has written these blocks; the take does not move `cur_buf` onto a FULL
buffer. -/
structure Orderly (s : Rlog ι) : Prop where
  segment : s.ring.Segment
  order : s.ring.InOrder
  text : ∀ b ∈ s.ring.persisted, (b.ids.flatMap s.ring.line).takeWhile (· ≠ 0) <+: b.text
  sent : s.file.disk.sent = s.ring.persisted.flatMap Block.text
  take : s.ring.status s.ring.prst_buf = .FREE → s.ring.take.status s.ring.take.cur_buf = .FREE

/-- Every take finds the logger in order. -/
def InOrder (s : Rlog ι) : LogEvent ι → Prop
  | .take => s.Orderly
  | _ => True

/-- No buffer is inserted while the persister has cleared its buffer and not yet advanced. -/
def Apart (s : Rlog ι) : LogEvent ι → Prop
  | .append _ log_line => s.persister = .advancing → ¬s.ring.Grows log_line
  | _ => True

instance (s : Rlog ι) : (ev : LogEvent ι) → Decidable (s.Apart ev)
  | .append _ _ => inferInstanceAs (Decidable (_ → _))
  | .init _ | .store | .enter _ _ _ | .reset _ | .test | .lock | .wake | .take | .decis _ | .write _
  | .advance | .dtor | .join | .flush _ _ => isTrue trivial

/-- Where the persister's buffer is: the last of the ring when it has been persisted, else the first,
and FULL when it is about to be. -/
def At (s : Rlog ι) (full free : List ℕ) : Prop :=
  match s.persister with
  | .deciding _ | .writing => full.head? = some s.ring.prst_buf
  | .advancing => (full ++ free).getLast? = some s.ring.prst_buf
  | _ => (full ++ free).head? = some s.ring.prst_buf

/-- The ring is in order. -/
def Good (s : Rlog ι) : Prop :=
  ∃ full free, s.ring.Laid full free ∧ s.ring.Ordered full free ∧ s.At full free

/-- The persister will advance, or has advanced, past the FULL buffers `late`. -/
def Broken (s : Rlog ι) : Prop :=
  ∃ late wait free, s.ring.Laid (late ++ wait) free ∧ late ≠ [] ∧ wait ++ free ≠ [] ∧
    match s.persister with
    | .advancing => late.getLast? = some s.ring.prst_buf
    | .deciding _ | .writing | .absent => False
    | _ => (wait ++ free).head? = some s.ring.prst_buf

end Rlog

open Rlog

theorem good_orderly (h : s.Good) (hsound : s.Sound) (hper : s.persister = .taking) : s.Orderly := by
  obtain ⟨full, free, hl, ho, hat⟩ := h
  unfold At at hat
  rw [hper] at hat
  obtain ⟨hring, hseg⟩ := hl.segment hat
  obtain ⟨-, -, -, -, -, -, -, htake⟩ := hl.take hat
  refine ⟨hseg, ?_, hsound.kept.text, hsound.sent, htake⟩
  unfold LogRing.InOrder
  rw [hring]
  exact ho.order

theorem broken_not_orderly (h : s.Broken) (hper : s.persister = .taking) : ¬s.Orderly := by
  obtain ⟨late, wait, free, hl, hlate, -, hat⟩ := h
  rw [hper] at hat
  exact fun ho => hl.not_segment hlate hat ho.segment

variable [DecidableEq ι] {raw : ℕ → ℕ → Byte} {localtime : ℕ → Tm} {ev : LogEvent ι}

omit [DecidableEq ι] in
theorem head?_of_prefix {l m : List ℕ} {p : ℕ} (h : l <+: m) (hp : l.head? = some p) :
    m.head? = some p := by
  obtain ⟨l', rfl⟩ := h
  rw [List.head?_append, hp]
  rfl

/-- **A step keeps the order**, unless it inserts a buffer behind the one that was just persisted. -/
theorem good_step (h : s.Good) (hsound : s.Sound) (hg : (logger raw localtime).guard s ev)
    (hs : (logger raw localtime).step s ev = .ok t) (hapart : s.Apart ev) : t.Good ∨ t.Over := by
  obtain ⟨full, free, hl, ho, hat⟩ := h
  unfold At at hat
  cases ev with
  | init ok =>
    have hper : s.persister = .absent := hsound.absent.mpr hg
    cases hs
    rw [hper] at hat
    exact .inl ⟨full, free, hl, ho, hat⟩
  | store =>
    cases hs
    exact .inl ⟨full, free, hl, ho, hat⟩
  | enter i tv_sec tv_usec =>
    obtain ⟨thread, rfl, -⟩ := enter_inv hs
    exact .inl ⟨full, free, hl, ho, hat⟩
  | reset i =>
    obtain ⟨curr_sec, -, rfl⟩ := reset_inv hg hs
    exact .inl ⟨full, free, hl.congr (fun _ => rfl) (fun _ => rfl) rfl rfl, ⟨ho.spare, ho.order⟩, hat⟩
  | append i log_line =>
    obtain ⟨curr_sec, hi, rfl⟩ := append_inv hg hs
    obtain ⟨full', free', hf⟩ :=
      hl.critical hsound.kept (hsound.past i curr_sec (.inr hi)) raw log_line
    refine .inl ⟨full', free', hf.laid, hf.ordered ho, ?_⟩
    unfold At
    dsimp only [move]
    rw [LogRing.critical_same.2]
    cases hper : s.persister with
    | advancing =>
      rw [hper] at hat
      rw [hf.same (hapart hper)]
      exact hat
    | deciding _ | writing =>
      rw [hper] at hat
      exact head?_of_prefix hf.prefix_full hat
    | _ =>
      rw [hper] at hat
      exact head?_of_prefix hf.prefix_all hat
  | test =>
    cases hs
    rw [show s.persister = .top from hg] at hat
    refine .inl ⟨full, free, hl, ho, ?_⟩
    unfold At
    dsimp only
    split_ifs <;> exact hat
  | lock =>
    cases hs
    rw [show s.persister = .entering from hg] at hat
    refine .inl ⟨full, free, hl, ho, ?_⟩
    unfold At
    dsimp only
    split_ifs <;> exact hat
  | wake =>
    cases hs
    rw [show s.persister = .waiting from hg] at hat
    exact .inl ⟨full, free, hl, ho, hat⟩
  | take =>
    rw [show s.persister = .taking from hg] at hat
    rcases take_inv hs with rfl | rfl
    · exact .inl ⟨full, free, hl, ho, hat⟩
    · obtain ⟨full', free', hl', -, hhead, hprst, ho', -⟩ := hl.take hat
      refine .inl ⟨full', free', hl', ho' ho, ?_⟩
      unfold At
      dsimp only
      rw [hprst]
      exact hhead
  | decis ok =>
    obtain ⟨date, hper, rfl⟩ := decis_inv hg hs
    rw [hper] at hat
    refine .inl ⟨full, free, hl, ho, ?_⟩
    unfold At
    dsimp only
    split_ifs
    · exact hat
    · exact head?_of_prefix (List.prefix_append _ _) hat
  | write beyond =>
    cases hs
    rw [show s.persister = .writing from hg] at hat
    obtain ⟨full, rfl⟩ := List.head?_eq_some_iff.mp hat
    refine .inl ⟨full, free ++ [s.ring.prst_buf], hl.persist rfl beyond, ho.persist hl rfl beyond, ?_⟩
    unfold At
    dsimp only
    rw [← List.append_assoc, List.getLast?_concat]
    rfl
  | advance =>
    cases hs
    rw [show s.persister = .advancing from hg] at hat
    obtain ⟨l, hlist⟩ := List.getLast?_eq_some_iff.mp hat
    refine .inl ⟨full, free, hl.congr (fun _ => rfl) (fun _ => rfl) rfl rfl, ⟨ho.spare, ho.order⟩, ?_⟩
    have hlinked := hl.linked
    rw [hlist] at hlinked
    unfold At
    dsimp only
    rw [hlist]
    exact (RingOf.snoc_iff.mp hlinked).2
  | dtor =>
    rcases dtor_inv hs with ⟨-, rfl⟩ | ⟨-, rfl⟩ <;> exact .inl ⟨full, free, hl, ho, hat⟩
  | join =>
    obtain ⟨stored, -, rfl⟩ := join_inv hg hs
    exact .inl ⟨full, free, hl, ho, hat⟩
  | flush ok beyond => exact .inr (flush_over hsound hg hs)

/-- An insertion behind the buffer that was just persisted: the ring is in order, but the persister
will advance to the new buffer. -/
theorem grows_broken (h : s.Good) (hsound : s.Sound) {i : ι} {log_line : Bytes}
    (hg : (logger raw localtime).guard s (.append i log_line))
    (hs : (logger raw localtime).step s (.append i log_line) = .ok t)
    (hper : s.persister = .advancing) (hgrows : s.ring.Grows log_line) : t.Broken := by
  obtain ⟨full, free, hl, -, hat⟩ := h
  obtain ⟨curr_sec, hi, rfl⟩ := append_inv hg hs
  obtain ⟨full', free', hf⟩ :=
    hl.critical hsound.kept (hsound.past i curr_sec (.inr hi)) raw log_line
  obtain ⟨rfl, rfl, rfl⟩ := hf.grown hgrows
  unfold At at hat
  rw [hper, List.getLast?_concat] at hat
  refine ⟨full ++ [s.ring.cur_buf], [], [s.ring.fresh], ?_, by simp, by simp, ?_⟩
  · rw [List.append_nil]
    exact hf.laid
  · dsimp only [move]
    rw [hper, LogRing.critical_same.2, List.getLast?_concat]
    exact hat

/-- Only a take ends the disorder. -/
theorem broken_step (h : s.Broken) (hsound : s.Sound) (hg : (logger raw localtime).guard s ev)
    (hs : (logger raw localtime).step s ev = .ok t) (hev : ev ≠ .take) : t.Broken ∨ t.Over := by
  obtain ⟨late, wait, free, hl, hlate, hrest, hat⟩ := h
  cases ev with
  | init ok =>
    rw [hsound.absent.mpr hg] at hat
    exact hat.elim
  | store =>
    cases hs
    exact .inl ⟨late, wait, free, hl, hlate, hrest, hat⟩
  | enter i tv_sec tv_usec =>
    obtain ⟨thread, rfl, -⟩ := enter_inv hs
    exact .inl ⟨late, wait, free, hl, hlate, hrest, hat⟩
  | reset i =>
    obtain ⟨curr_sec, -, rfl⟩ := reset_inv hg hs
    exact .inl ⟨late, wait, free, hl.congr (fun _ => rfl) (fun _ => rfl) rfl rfl, hlate, hrest, hat⟩
  | append i log_line =>
    obtain ⟨curr_sec, hi, rfl⟩ := append_inv hg hs
    obtain ⟨full', free', hf⟩ :=
      hl.critical hsound.kept (hsound.past i curr_sec (.inr hi)) raw log_line
    have hfull := hf.prefix_full
    have hall := hf.prefix_all
    obtain ⟨more, rfl⟩ := hfull
    have hwait : wait ++ free <+: wait ++ more ++ free' := by
      have happ : late ++ (wait ++ free) <+: late ++ (wait ++ more ++ free') := by
        simpa only [List.append_assoc] using hall
      exact (List.prefix_append_right_inj late).mp happ
    refine .inl ⟨late, wait ++ more, free', ?_, hlate, ?_, ?_⟩
    · rw [← List.append_assoc]
      exact hf.laid
    · intro hnil
      rw [hnil, List.prefix_nil] at hwait
      exact hrest hwait
    · dsimp only [move]
      rw [LogRing.critical_same.2]
      cases hper : s.persister with
      | advancing =>
        rw [hper] at hat
        exact hat
      | deciding _ | writing | absent =>
        rw [hper] at hat
        exact hat
      | _ =>
        rw [hper] at hat
        exact head?_of_prefix hwait hat
  | test =>
    cases hs
    rw [show s.persister = .top from hg] at hat
    refine .inl ⟨late, wait, free, hl, hlate, hrest, ?_⟩
    dsimp only
    split_ifs <;> exact hat
  | lock =>
    cases hs
    rw [show s.persister = .entering from hg] at hat
    refine .inl ⟨late, wait, free, hl, hlate, hrest, ?_⟩
    dsimp only
    split_ifs <;> exact hat
  | wake =>
    cases hs
    rw [show s.persister = .waiting from hg] at hat
    exact .inl ⟨late, wait, free, hl, hlate, hrest, hat⟩
  | take => exact absurd rfl hev
  | decis ok =>
    obtain ⟨date, hper, -⟩ := decis_inv hg hs
    rw [hper] at hat
    exact hat.elim
  | write beyond =>
    rw [show s.persister = .writing from hg] at hat
    exact hat.elim
  | advance =>
    cases hs
    rw [show s.persister = .advancing from hg] at hat
    obtain ⟨l, rfl⟩ := List.getLast?_eq_some_iff.mp hat
    obtain ⟨q, rest, hq⟩ := List.exists_cons_of_ne_nil hrest
    refine .inl ⟨l ++ [s.ring.prst_buf], wait, free, hl.congr (fun _ => rfl) (fun _ => rfl) rfl rfl, hlate,
      hrest, ?_⟩
    have hlinked : RingOf s.ring.next (l ++ s.ring.prst_buf :: q :: rest) := by
      have hlist : l ++ [s.ring.prst_buf] ++ wait ++ free = l ++ s.ring.prst_buf :: q :: rest := by
        rw [← hq]
        simp
      exact hlist ▸ hl.linked
    rw [hq]
    exact congrArg some hlinked.next_mid.symm
  | dtor =>
    rcases dtor_inv hs with ⟨-, rfl⟩ | ⟨-, rfl⟩ <;> exact .inl ⟨late, wait, free, hl, hlate, hrest, hat⟩
  | join =>
    obtain ⟨stored, -, rfl⟩ := join_inv hg hs
    exact .inl ⟨late, wait, free, hl, hlate, hrest, hat⟩
  | flush ok beyond => exact .inr (flush_over hsound hg hs)

omit [DecidableEq ι] in
theorem logger_start_good (one_buff_len now : ℕ) (files : LogPath → Option Bytes) :
    (Rlog.start raw localtime one_buff_len now files : Rlog ι).Good := by
  refine ⟨[], [1, 2, 3], ⟨⟨by decide, ?_, rfl, by decide, rfl, by simp, ?_⟩, rfl⟩,
    ⟨fun _ _ => rfl, rfl⟩, rfl⟩
  · show ∀ p ∈ [1, 2, 3], p < 4
    decide
  · intro p hp
    obtain rfl | rfl | rfl : p = 1 ∨ p = 2 ∨ p = 3 := by simpa using hp
    all_goals rfl

variable {one_buff_len now : ℕ} {files : LogPath → Option Bytes} {es : List (LogEvent ι)}

omit [DecidableEq ι] in
theorem over_not_taking (h : s.Over) : s.persister ≠ .taking := by
  rcases h.2 with hper | hper <;> rw [hper] <;> simp

/-- The order is kept as long as all insertions are apart. -/
theorem apart_run (h : (logger raw localtime).Run (.start raw localtime one_buff_len now files) es s)
    (hapart : (logger raw localtime).Always Apart (.start raw localtime one_buff_len now files) es) :
    (logger raw localtime).Always InOrder (.start raw localtime one_buff_len now files) es ∧
      (s.Good ∧ s.Sound ∨ s.Over) := by
  revert hapart
  refine System.Run.history (P := fun es s =>
    (logger raw localtime).Always Apart (.start raw localtime one_buff_len now files) es →
      (logger raw localtime).Always InOrder (.start raw localtime one_buff_len now files) es ∧
        (s.Good ∧ s.Sound ∨ s.Over)) ?_ ?_ h
  · exact fun _ => ⟨trivial, .inl ⟨logger_start_good .., start_sound ..⟩⟩
  · intro es t ev u hrun ih hg hs hapart
    rw [hrun.always_snoc] at hapart ⊢
    obtain ⟨horder, hi⟩ := ih hapart.1
    have htake : t.InOrder ev := by
      cases ev with
      | take =>
        rcases hi with ⟨hgood, hsound⟩ | hover
        · exact good_orderly hgood hsound hg
        · exact absurd hg (over_not_taking hover)
      | _ => trivial
    refine ⟨⟨horder, htake⟩, ?_⟩
    rcases hi with ⟨hgood, hsound⟩ | hover
    · exact hsound.and_step hg hs (good_step hgood hsound hg hs hapart.2)
    · exact .inr (over_step hover hg hs)

/-- An insertion that is not apart shows at the next take. -/
theorem not_apart_run
    (h : (logger raw localtime).Run (.start raw localtime one_buff_len now files) es s)
    (hapart : ¬(logger raw localtime).Always Apart (.start raw localtime one_buff_len now files) es) :
    s.Broken ∧ s.Sound ∨ s.Over ∨
      ¬(logger raw localtime).Always InOrder (.start raw localtime one_buff_len now files) es := by
  revert hapart
  refine System.Run.history (P := fun es s =>
    ¬(logger raw localtime).Always Apart (.start raw localtime one_buff_len now files) es →
      s.Broken ∧ s.Sound ∨ s.Over ∨
        ¬(logger raw localtime).Always InOrder (.start raw localtime one_buff_len now files) es) ?_ ?_ h
  · exact fun hn => absurd trivial hn
  · intro es t ev u hrun ih hg hs hapart
    rw [hrun.always_snoc] at hapart ⊢
    by_cases hall : (logger raw localtime).Always Apart (.start raw localtime one_buff_len now files) es
    · -- The last step is the insertion.
      have hev : ¬t.Apart ev := fun he => hapart ⟨hall, he⟩
      cases ev with
      | append i log_line =>
        obtain ⟨hper, hgrows⟩ := Classical.not_imp.mp hev
        obtain ⟨-, ⟨hgood, hsound⟩ | hover⟩ := apart_run hrun hall
        · have hbroken := grows_broken hgood hsound hg hs hper (not_not.mp hgrows)
          exact or_assoc.mp (.inl (hsound.and_step hg hs (.inl hbroken)))
        · exact .inr (.inl (over_step hover hg hs))
      | _ => exact absurd trivial hev
    · rcases ih hall with ⟨hbroken, hsound⟩ | hover | horder
      · by_cases hev : ev = .take
        · subst hev
          exact .inr (.inr fun ho => broken_not_orderly hbroken hg ho.2)
        · have hkeeps := broken_step hbroken hsound hg hs hev
          exact or_assoc.mp (.inl (hsound.and_step hg hs hkeeps))
      · exact .inr (.inl (over_step hover hg hs))
      · exact .inr (.inr fun ho => horder ho.1)

/-- **When the buffers are persisted in the order they were filled.** If no buffer is inserted between
a persist and the advance after it, every take of the run is in order, and what was persisted are the
first lines, in their order; in a run that has come to a take, all takes are in order, this one
included, only if none was. -/
theorem orderly_iff
    (h : (logger raw localtime).Run (.start raw localtime one_buff_len now files) es s) :
    ((logger raw localtime).Always Apart (.start raw localtime one_buff_len now files) es →
      (logger raw localtime).Always InOrder (.start raw localtime one_buff_len now files) es ∧
        ((∀ stored, s.life ≠ .returned stored) →
          s.ring.persisted.flatMap Block.ids <+: List.range s.ring.lines.length)) ∧
    (s.persister = .taking →
      ((logger raw localtime).Always InOrder (.start raw localtime one_buff_len now files) es ∧
        s.Orderly ↔
          (logger raw localtime).Always Apart (.start raw localtime one_buff_len now files) es)) := by
  constructor
  · intro hapart
    obtain ⟨horder, hi⟩ := apart_run h hapart
    refine ⟨horder, ?_⟩
    intro hlife
    rcases hi with ⟨⟨full, free, -, ho, -⟩, -⟩ | ⟨⟨stored, hreturned⟩, -⟩
    · rw [← ho.order]
      exact List.prefix_append _ _
    · exact absurd hreturned (hlife stored)
  intro hper
  constructor
  · rintro ⟨horder, hs⟩
    by_contra hapart
    rcases not_apart_run h hapart with ⟨hbroken, -⟩ | hover | hnot
    · exact broken_not_orderly hbroken hper hs
    · exact over_not_taking hover hper
    · exact hnot horder
  · intro hapart
    obtain ⟨horder, ⟨hgood, hsound⟩ | hover⟩ := apart_run h hapart
    · exact ⟨horder, good_orderly hgood hsound hper⟩
    · exact absurd hper (over_not_taking hover)

end

/-! ### Two runs -/

/-- Buffers of one byte each. -/
def tiny : Rlog Unit := .start (fun _ _ => 0) (fun _ => default) 1 0 fun _ => none

/-- Four lines before the persister wakes: a fourth buffer is inserted. -/
def fourLines : List (LogEvent Unit) :=
  [.init true, .store] ++ logLine [97] ++ logLine [98] ++ logLine [99] ++ logLine [100] ++ [.test, .lock]

theorem orderly_iff_fourLines : ∃ s, (logger (fun _ _ => 0) fun _ => default).Run tiny fourLines s ∧
    s.persister = .taking ∧ s.ring.ring = [1, 2, 3, 4] ∧ s.Orderly := by
  have hrun : (((logger (fun _ _ => 0) fun _ => default).exec tiny fourLines).map fun s =>
      (s.persister, s.ring.ring)) = some (.taking, [1, 2, 3, 4]) := by
    decide +kernel
  obtain ⟨s, hs, hview⟩ := (System.exec_map_iff _).mp hrun
  obtain ⟨hper, hring⟩ := Prod.mk.inj hview
  exact ⟨s, hs, hper, hring, (((orderly_iff hs).2 hper).mpr (by decide +kernel)).2⟩

/-- The first buffer has been persisted, and the others and then the first again are filled before the
persister goes on. -/
def overtaken : List (LogEvent Unit) :=
  [.init true, .store, .test, .lock] ++ logLine [97] ++ logLine [98] ++
    [.wake, .take, .decis true, .write []] ++ logLine [99] ++ logLine [100] ++ logLine [101] ++
    [.advance, .test, .lock, .wake]

/-- **The newest line is persisted second**: the persister has advanced to the new buffer, behind it
are three FULL ones, and its take moves `cur_buf` onto one of them. -/
theorem new_buffer_first : ∃ s t, (logger (fun _ _ => 0) fun _ => default).Run tiny overtaken s ∧
    s.persister = .taking ∧ ¬s.ring.Segment ∧ s.ring.take.status s.ring.take.cur_buf = .FULL ∧
    (logger (fun _ _ => 0) fun _ => default).Run s [.take, .decis true, .write []] t ∧
    t.ring.lines = [[97], [98], [99], [100], [101]] ∧
    t.ring.persisted.flatMap Block.ids = [0, 4] := by
  have hrun : (((logger (fun _ _ => 0) fun _ => default).exec tiny overtaken).map fun s =>
      (s.persister, decide s.ring.Segment, s.ring.take.status s.ring.take.cur_buf)) =
        some (.taking, false, .FULL) := by
    decide +kernel
  have hmore : (((logger (fun _ _ => 0) fun _ => default).exec tiny
      (overtaken ++ [.take, .decis true, .write []])).map fun t =>
        (t.ring.lines, t.ring.persisted.flatMap Block.ids)) =
      some ([[97], [98], [99], [100], [101]], [0, 4]) := by
    decide +kernel
  obtain ⟨s, hs, hview⟩ := (System.exec_map_iff _).mp hrun
  obtain ⟨t, ht, hlines⟩ := (System.exec_map_iff _).mp hmore
  obtain ⟨s', hs', hst⟩ := ht.split
  obtain rfl : s = s' := hs.unique hs'
  simp only [Prod.mk.injEq, decide_eq_false_iff_not] at hview hlines
  exact ⟨s, t, hs, hview.1, hview.2.1, hview.2.2, hst, hlines.1, hlines.2⟩

end MuduoSe
