/-
# The registries of the timer queue agree

What ties `list_`, `indexlist_` and the nodes that are alive together is one fact: both
sets hold exactly the live nodes that are not `held` from elsewhere, that is by an entry of
`deltimelist` or, before they are added, by a functor of the loop (`TimerQueue.Good`). Every
function of the queue is then a change of `held`: `insert` takes a node out, `getExpired`
puts the expired ones in, a cancel in place and `deltimelist.clear()` end a node's life.

Each lemma about a function also says that it returns: the lookups and the pointers of the
code do not fail.

Key definitions: `ptrs`, `Registers`, `TimerQueue.Good`.
Key theorems: `Good.insert`, `Good.delWaiting`, `Good.getExpired`, `Good.fflash`.
-/
import Mathlib.Data.List.Nodup
import Mathlib.Data.List.Perm.Basic
import MuduoSe.Net.TimerQueue

namespace MuduoSe

/-! ### Sets and the heap -/

theorem mem_insert {t : PairSet} {k a : Int × ℕ} : a ∈ t.insert k ↔ a = k ∨ a ∈ t := by
  rw [Std.ExtTreeSet.mem_insert, pairCmp_eq, eq_comm]

theorem mem_erase {t : PairSet} {k a : Int × ℕ} : a ∈ t.erase k ↔ a ≠ k ∧ a ∈ t := by
  rw [Std.ExtTreeSet.mem_erase, Ne, pairCmp_eq, eq_comm]

theorem mem_ofList {l : List (Int × ℕ)} {a : Int × ℕ} :
    a ∈ Std.ExtTreeSet.ofList l pairCmp ↔ a ∈ l := by
  rw [Std.ExtTreeSet.mem_ofList, List.contains_iff_mem]

theorem nodup_toList (t : PairSet) : t.toList.Nodup := by
  refine Std.ExtTreeSet.distinct_toList.imp fun h => ?_
  rwa [pairCmp_eq] at h

/-- The nodes that are alive. -/
abbrev Heap := Std.ExtTreeMap Addr TimeNode compare

theorem compare_eq_eq {p a : Addr} : compare p a = .eq ↔ a = p := by
  rw [Nat.compare_eq_eq, eq_comm]

theorem heap_insert (h : Heap) (p : Addr) (n : TimeNode) (a : Addr) :
    (h.insert p n)[a]? = if a = p then some n else h[a]? := by
  rw [Std.ExtTreeMap.getElem?_insert]
  simp only [compare_eq_eq]

theorem heap_erase (h : Heap) (p a : Addr) : (h.erase p)[a]? = if a = p then none else h[a]? := by
  rw [Std.ExtTreeMap.getElem?_erase]
  simp only [compare_eq_eq]

/-- The nodes that some entries own. -/
def ptrs (es : List Entry) : List Addr := (es.map (·.2)).filter (· != 0)

theorem mem_ptrs {es : List Entry} {p : Addr} : p ∈ ptrs es ↔ p ≠ 0 ∧ ∃ e ∈ es, e.2 = p := by
  simp only [ptrs, List.mem_filter, List.mem_map, bne_iff_ne]
  exact and_comm

theorem expired_iff {now : Time} {e : Entry} : TimerQueue.expired now e = true ↔ e.1 < now := by
  unfold TimerQueue.expired
  rw [beq_iff_eq, pairCmp_lt]
  simp

/-! ### A set of keyed nodes -/

/-- A set holds the live nodes that are not in `held`, each with its key. -/
def Registers (S : PairSet) (key : TimeNode → Int) (heap : Heap) (held : List Addr) : Prop :=
  ∀ k p, (k, p) ∈ S ↔ p ∉ held ∧ ∃ n : TimeNode, heap[p]? = some n ∧ key n = k

namespace Registers

variable {S : PairSet} {key : TimeNode → Int} {heap : Heap} {held : List Addr} {p : Addr}
  {n : TimeNode}

theorem of_mem_iff (h : Registers S key heap held) {held' : List Addr}
    (hmem : ∀ a, a ∈ held' ↔ a ∈ held) : Registers S key heap held' := by
  intro k a
  rw [hmem]
  exact h k a

/-- A held node is entered with its key. -/
theorem insert (h : Registers S key heap (p :: held)) (hp : p ∉ held) (hn : heap[p]? = some n) :
    Registers (S.insert (key n, p)) key heap held := by
  intro k a
  rw [mem_insert, h k a, List.mem_cons, not_or, Prod.mk.injEq]
  by_cases ha : a = p
  · subst ha
    simp [hn, hp, eq_comm]
  · simp [ha]

/-- A node is held instead of its entry. -/
theorem erase (h : Registers S key heap held) (hn : heap[p]? = some n) :
    Registers (S.erase (key n, p)) key heap (p :: held) := by
  intro k a
  rw [mem_erase, h k a, List.mem_cons, not_or, Ne, Prod.mk.injEq]
  by_cases ha : a = p
  · subst ha
    rw [hn]
    constructor
    · rintro ⟨hne, -, m, hm, hk⟩
      cases hm
      exact absurd ⟨hk.symm, rfl⟩ hne
    · rintro ⟨⟨hne, -⟩, -⟩
      exact absurd rfl hne
  · simp [ha]

/-- What is at a free address is in no set. -/
theorem hold_free (h : Registers S key heap held) (hfree : heap[p]? = none) :
    Registers S key heap (p :: held) := by
  intro k a
  rw [h k a, List.mem_cons, not_or]
  by_cases ha : a = p
  · subst ha
    simp [hfree]
  · simp [ha]

/-- A held node may change. -/
theorem change (h : Registers S key heap (p :: held)) (m : TimeNode) :
    Registers S key (heap.insert p m) (p :: held) := by
  intro k a
  rw [h k a, heap_insert]
  refine and_congr_right fun ha => ?_
  have hne : a ≠ p := fun heq => ha (heq ▸ List.mem_cons_self)
  rw [if_neg hne]

/-- A held node may be deleted. -/
theorem delete (h : Registers S key heap (p :: held)) : Registers S key (heap.erase p) held := by
  intro k a
  rw [h k a, heap_erase, List.mem_cons, not_or]
  by_cases ha : a = p
  · simp [ha]
  · simp [ha]

/-- The entries of the nodes in `out` are taken away, and these are held. -/
theorem move (h : Registers S key heap held) {S' : PairSet} {out : List Addr}
    (hsub : ∀ a ∈ S', a ∈ S)
    (hout : ∀ (a : Addr) (n : TimeNode), heap[a]? = some n → (key n, a) ∈ S →
      ((key n, a) ∈ S' ↔ a ∉ out)) : Registers S' key heap (out ++ held) := by
  intro k a
  rw [List.mem_append, not_or]
  constructor
  · intro hin
    obtain ⟨ha, n, hn, rfl⟩ := (h k a).mp (hsub _ hin)
    exact ⟨⟨(hout a n hn (hsub _ hin)).mp hin, ha⟩, n, hn, rfl⟩
  · rintro ⟨⟨ho, ha⟩, n, hn, rfl⟩
    exact (hout a n hn ((h _ a).mpr ⟨ha, n, hn, rfl⟩)).mpr ho

end Registers

namespace TimerQueue

/-- The registries of a queue whose nodes in `held` are owned from elsewhere. -/
structure Good (q : TimerQueue) (held : List Addr) : Prop where
  null : q.heap[0]? = none
  size : ∀ (p : Addr) (n : TimeNode), q.heap[p]? = some n → n.index_ ≤ q.size_
  distinct : ∀ (p p' : Addr) (n n' : TimeNode), q.heap[p]? = some n → q.heap[p']? = some n' →
    n.index_ = n'.index_ → p = p'
  nodup : held.Nodup
  live : ∀ p ∈ held, ∃ n : TimeNode, q.heap[p]? = some n
  list_iff : Registers q.list_ TimeNode.expiration_ q.heap held
  index_iff : Registers q.indexlist_ TimeNode.index_ q.heap held

variable {q : TimerQueue} {held : List Addr} {p : Addr} {n : TimeNode}

theorem Good.ne_zero (h : q.Good held) (hn : q.heap[p]? = some n) : p ≠ 0 := by
  intro h0
  rw [h0, h.null] at hn
  cases hn

/-- Nothing else of a queue matters. -/
theorem Good.congr (h : q.Good held) {q' : TimerQueue} (hsize : q'.size_ = q.size_)
    (hheap : q'.heap = q.heap) (hlist : q'.list_ = q.list_) (hindex : q'.indexlist_ = q.indexlist_) :
    q'.Good held := by
  obtain ⟨size, heap, list, index, del, wait, calling, armed⟩ := q
  obtain ⟨size', heap', list', index', del', wait', calling', armed'⟩ := q'
  dsimp only at hsize hheap hlist hindex
  subst hsize hheap hlist hindex
  exact ⟨h.null, h.size, h.distinct, h.nodup, h.live, h.list_iff, h.index_iff⟩

theorem Good.perm (h : q.Good held) {held' : List Addr} (hp : held.Perm held') : q.Good held' := by
  have hmem : ∀ a, a ∈ held' ↔ a ∈ held := fun a => hp.mem_iff.symm
  refine ⟨h.null, h.size, h.distinct, hp.nodup_iff.mp h.nodup, ?_, h.list_iff.of_mem_iff hmem,
    h.index_iff.of_mem_iff hmem⟩
  intro a ha
  exact h.live a ((hmem a).mp ha)

theorem deref_eq (h : q.heap[p]? = some n) : q.deref p = .ok n := by
  unfold deref
  rw [h]

/-! ### Adding -/

/-- A queue with a node entered in both sets. -/
def enter (q : TimerQueue) (n : TimeNode) (p : Addr) : TimerQueue :=
  { q with
    list_ := q.list_.insert (n.expiration_, p)
    indexlist_ := q.indexlist_.insert (n.index_, p) }

theorem Good.enter (h : q.Good (p :: held)) (hn : q.heap[p]? = some n) : (q.enter n p).Good held := by
  obtain ⟨hp, hnodup⟩ := List.nodup_cons.mp h.nodup
  refine ⟨h.null, h.size, h.distinct, hnodup, ?_, h.list_iff.insert hp hn, h.index_iff.insert hp hn⟩
  intro a ha
  exact h.live a (List.mem_cons_of_mem p ha)

/-- **`insert` enters a held node in both sets.** -/
theorem Good.insert (h : q.Good (p :: held)) (hn : q.heap[p]? = some n) :
    ∃ flag, q.insert p = .ok (flag, q.enter n p) := by
  have hout : (n.expiration_, p) ∉ q.list_ := fun hin =>
    ((h.list_iff _ p).mp hin).1 List.mem_cons_self
  unfold TimerQueue.insert
  rw [deref_eq hn, ok_bind, if_neg hout]
  dsimp only
  rw [show deref { q with list_ := q.list_.insert (n.expiration_, p) } p = .ok n from deref_eq hn]
  exact ⟨_, rfl⟩

/-- A new node is held until it is added. -/
theorem Good.newTimeNode (h : q.Good held) (hp : p ≠ 0) (hfree : q.heap[p]? = none) (when : Time)
    (interval : Int) : (q.newTimeNode p when interval).Good (p :: held) := by
  have hget : ∀ a, (q.newTimeNode p when interval).heap[a]? =
      if a = p then some ⟨when, interval, 0 < interval, q.size_ + 1⟩ else q.heap[a]? :=
    heap_insert q.heap p _
  have hout : p ∉ held := fun hin => by
    obtain ⟨n, hn⟩ := h.live p hin
    rw [hfree] at hn
    cases hn
  have hold : ∀ a n, q.heap[a]? = some n → a ≠ p := fun a n hn ha => by
    rw [ha, hfree] at hn
    cases hn
  refine ⟨?_, ?_, ?_, List.nodup_cons.mpr ⟨hout, h.nodup⟩, ?_, (h.list_iff.hold_free hfree).change _,
    (h.index_iff.hold_free hfree).change _⟩
  · rw [hget, if_neg hp.symm]
    exact h.null
  · intro a n hn
    rw [hget] at hn
    show n.index_ ≤ q.size_ + 1
    split_ifs at hn
    · cases hn
      exact Int.le_refl _
    · have := h.size a n hn
      omega
  · intro a b n m hn hm heq
    rw [hget] at hn hm
    split_ifs at hn hm with ha hb hb
    · rw [ha, hb]
    · cases hn
      have := h.size b m hm
      dsimp only at heq
      omega
    · cases hm
      have := h.size a n hn
      dsimp only at heq
      omega
    · exact h.distinct a b n m hn hm heq
  · intro a ha
    rw [hget]
    rcases List.mem_cons.mp ha with rfl | ha
    · exact ⟨_, if_pos rfl⟩
    · obtain ⟨n, hn⟩ := h.live a ha
      exact ⟨n, by rw [if_neg (hold a n hn), hn]⟩

/-- A node of another queue only takes an index. -/
theorem Good.other (h : q.Good held) : Good { q with size_ := q.size_ + 1 } held := by
  refine ⟨h.null, ?_, h.distinct, h.nodup, h.live, h.list_iff, h.index_iff⟩
  intro a n hn
  have := h.size a n hn
  show n.index_ ≤ q.size_ + 1
  omega

/-- **`addTimeNodeInLoop` takes the node it adds out of the held ones.** -/
theorem Good.addTimeNodeInLoop (h : q.Good (p :: held)) (hn : q.heap[p]? = some n) (r : ResetTimes) :
    ∃ armed, q.addTimeNodeInLoop p r = .ok { q.enter n p with armed := armed } ∧
      Good { q.enter n p with armed := armed } held := by
  obtain ⟨flag, hins⟩ := h.insert hn
  have hgood : ∀ armed, Good { q.enter n p with armed := armed } held := fun _ =>
    (h.enter hn).congr rfl rfl rfl rfl
  unfold TimerQueue.addTimeNodeInLoop
  rw [hins, ok_bind]
  rcases flag with _ | _
  · exact ⟨q.armed, rfl, hgood _⟩
  · dsimp only [if_true]
    rw [show (q.enter n p).deref p = .ok n from deref_eq hn, ok_bind]
    exact ⟨_, rfl, hgood _⟩

/-! ### Taking nodes out -/

/-- A held node is deleted. -/
theorem Good.eraseHeld (h : q.Good (p :: held)) : Good { q with heap := q.heap.erase p } held := by
  obtain ⟨hp, hnodup⟩ := List.nodup_cons.mp h.nodup
  have hget : ∀ a : Addr, (q.heap.erase p)[a]? = if a = p then none else q.heap[a]? :=
    heap_erase q.heap p
  refine ⟨?_, ?_, ?_, hnodup, ?_, h.list_iff.delete, h.index_iff.delete⟩
  · show (q.heap.erase p)[0]? = none
    rw [hget, h.null, ite_self]
  · intro a n hn
    have hn : (q.heap.erase p)[a]? = some n := hn
    rw [hget] at hn
    split_ifs at hn
    exact h.size a n hn
  · intro a b n m hn hm
    have hn : (q.heap.erase p)[a]? = some n := hn
    have hm : (q.heap.erase p)[b]? = some m := hm
    rw [hget] at hn hm
    split_ifs at hn hm
    exact h.distinct a b n m hn hm
  · intro a ha
    obtain ⟨n, hn⟩ := h.live a (List.mem_cons_of_mem p ha)
    have hne : a ≠ p := fun heq => hp (heq ▸ ha)
    exact ⟨n, by show (q.heap.erase p)[a]? = some n; rw [hget, if_neg hne, hn]⟩

/-- A waiting node can as well be held, without its entries. -/
theorem Good.hold (h : q.Good held) (hp : p ∉ held) (hn : q.heap[p]? = some n) :
    Good { q with
      list_ := q.list_.erase (n.expiration_, p)
      indexlist_ := q.indexlist_.erase (n.index_, p) } (p :: held) := by
  refine ⟨h.null, h.size, h.distinct, List.nodup_cons.mpr ⟨hp, h.nodup⟩, ?_, h.list_iff.erase hn,
    h.index_iff.erase hn⟩
  intro a ha
  rcases List.mem_cons.mp ha with rfl | ha
  · exact ⟨n, hn⟩
  · exact h.live a ha

/-- **A cancel in place ends the node's life.** -/
theorem Good.delWaiting (h : q.Good held) {t : TimeId} (ht : t.key ∈ q.indexlist_) :
    ∃ n, q.heap[t.own_timenode_]? = some n ∧ n.index_ = t.index_ ∧ t.own_timenode_ ∉ held ∧
      q.delTimeNodeInLoop t = .ok { q with
        heap := q.heap.erase t.own_timenode_
        list_ := q.list_.erase (n.expiration_, t.own_timenode_)
        indexlist_ := q.indexlist_.erase t.key } ∧
      Good { q with
        heap := q.heap.erase t.own_timenode_
        list_ := q.list_.erase (n.expiration_, t.own_timenode_)
        indexlist_ := q.indexlist_.erase t.key } held := by
  obtain ⟨hp, n, hn, hi⟩ := (h.index_iff _ _).mp ht
  have hin : (n.expiration_, t.own_timenode_) ∈ q.list_ := (h.list_iff _ _).mpr ⟨hp, n, hn, rfl⟩
  have hkey : t.key = (n.index_, t.own_timenode_) := by rw [hi]; rfl
  refine ⟨n, hn, hi, hp, ?_, ?_⟩
  · unfold TimerQueue.delTimeNodeInLoop
    rw [if_pos ht, show q.deref t.key.2 = .ok n from deref_eq hn, ok_bind]
    exact if_pos hin
  · rw [hkey]
    exact (h.hold hp hn).eraseHeld

/-- Any other cancel deletes nothing. -/
theorem delOther {t : TimeId} (ht : t.key ∉ q.indexlist_) :
    q.delTimeNodeInLoop t = .ok { q with
      waitdeltimelist := if q.calling then q.waitdeltimelist.insert t.key else q.waitdeltimelist } := by
  unfold TimerQueue.delTimeNodeInLoop
  rw [if_neg ht]
  by_cases hc : q.calling = true
  · rw [if_pos hc, if_pos hc]
    rfl
  · rw [if_neg hc, if_neg hc]
    rfl

/-! ### A batch -/

theorem ptrs_null (t : Time) (es : List Entry) : ptrs ((t, 0) :: es) = ptrs es := rfl

theorem ptrs_cons {e : Entry} (h : e.2 ≠ 0) (es : List Entry) : ptrs (e :: es) = e.2 :: ptrs es := by
  unfold ptrs
  rw [List.map_cons, List.filter_cons_of_pos (by simpa using h)]

/-- **`deltimelist.clear()` deletes what its entries still own.** -/
theorem Good.foldl_erase : ∀ (es : List Entry) {q : TimerQueue}, q.Good (ptrs es ++ held) →
    Good { q with heap := es.foldl (fun h e => h.erase e.2) q.heap } held
  | [], q, h => h
  | e :: es, q, h => by
    by_cases he : e.2 = 0
    · have hsame : q.heap.erase e.2 = q.heap := by
        refine Std.ExtTreeMap.ext_getElem? fun a => ?_
        rw [heap_erase, he]
        split_ifs with ha
        · rw [ha, h.null]
        · rfl
      rw [List.foldl_cons, hsame]
      obtain ⟨t, p⟩ := e
      obtain rfl : p = 0 := he
      exact Good.foldl_erase es h
    · rw [ptrs_cons he, List.cons_append] at h
      exact Good.foldl_erase es h.eraseHeld

theorem clear_get (q : TimerQueue) (a : Addr) :
    q.clear.heap[a]? = if a ∈ q.deltimelist.map (·.2) then none else q.heap[a]? := by
  suffices H : ∀ (es : List Entry) (h : Heap), (es.foldl (fun h e => h.erase e.2) h)[a]? =
      if a ∈ es.map (·.2) then none else h[a]? from H q.deltimelist q.heap
  intro es
  induction es with
  | nil => intro h; rfl
  | cons e es ih =>
    intro h
    rw [List.foldl_cons, ih, heap_erase, List.map_cons]
    by_cases ha : a = e.2
    · rw [if_pos ha, ite_self, if_pos (ha ▸ List.mem_cons_self)]
    · rw [if_neg ha, if_congr (List.mem_cons.trans (or_iff_right ha)) rfl rfl]

theorem Good.clear (h : q.Good (ptrs q.deltimelist ++ held)) : q.clear.Good held :=
  (Good.foldl_erase q.deltimelist h).congr rfl rfl rfl rfl

/-- Only the nodes that its entries own are gone. -/
theorem Good.clear_heap (h : q.Good held) (a : Addr) :
    q.clear.heap[a]? = if a ∈ ptrs q.deltimelist then none else q.heap[a]? := by
  rw [clear_get]
  by_cases ha : a = 0
  · rw [ha, h.null, ite_self, ite_self]
  · refine if_congr ?_ rfl rfl
    rw [mem_ptrs, List.mem_map]
    exact (and_iff_right ha).symm

theorem eraseIndices_eq : ∀ (es : List Entry) (q : TimerQueue),
    (∀ e ∈ es, ∃ n : TimeNode, q.heap[e.2]? = some n) →
    ∃ S, q.eraseIndices es = .ok { q with indexlist_ := S } ∧ ∀ i p, (i, p) ∈ S ↔
      (i, p) ∈ q.indexlist_ ∧ ∀ n : TimeNode, q.heap[p]? = some n → n.index_ = i →
        ∀ e ∈ es, e.2 ≠ p
  | [], q, _ => ⟨q.indexlist_, rfl, fun i p => by simp⟩
  | e :: es, q, h => by
    obtain ⟨n, hn⟩ := h e List.mem_cons_self
    obtain ⟨S, hS, hmem⟩ := eraseIndices_eq es
      { q with indexlist_ := q.indexlist_.erase (n.index_, e.2) }
      fun e' he' => h e' (List.mem_cons_of_mem e he')
    refine ⟨S, by rw [eraseIndices, deref_eq hn, ok_bind, hS], fun i p => ?_⟩
    rw [hmem, mem_erase, Ne, Prod.mk.injEq]
    constructor
    · rintro ⟨⟨hne, hin⟩, hes⟩
      refine ⟨hin, fun m hm hi e' he' heq => ?_⟩
      rcases List.mem_cons.mp he' with rfl | he'
      · subst heq
        have hm : m = n := Option.some.inj (hm.symm.trans hn)
        exact hne ⟨by rw [← hi, hm], rfl⟩
      · exact hes m hm hi e' he' heq
    · rintro ⟨hin, hes⟩
      refine ⟨⟨?_, hin⟩, fun m hm hi e' he' => hes m hm hi e' (List.mem_cons_of_mem e he')⟩
      rintro ⟨rfl, rfl⟩
      exact hes n hn rfl e List.mem_cons_self rfl

/-- A live node that is not held has one entry. -/
theorem Good.entry_unique (h : q.Good held) {e e' : Time} (he : (e, p) ∈ q.list_)
    (he' : (e', p) ∈ q.list_) : e = e' := by
  obtain ⟨-, n, hn, rfl⟩ := (h.list_iff _ _).mp he
  obtain ⟨-, m, hm, rfl⟩ := (h.list_iff _ _).mp he'
  rw [hn, Option.some.injEq] at hm
  rw [hm]

/-- No node has two entries in `list_`. -/
theorem Good.nodup_nodes (h : q.Good held) : (q.list_.toList.map (·.2)).Nodup := by
  refine List.Nodup.map_on ?_ (nodup_toList q.list_)
  rintro ⟨e, p⟩ he ⟨e', p'⟩ he' heq
  obtain rfl : p = p' := heq
  rw [h.entry_unique (Std.ExtTreeSet.mem_toList.mp he) (Std.ExtTreeSet.mem_toList.mp he')]

theorem Good.mem_nodes (h : q.Good held) :
    p ∈ q.list_.toList.map (·.2) ↔ p ∉ held ∧ ∃ n : TimeNode, q.heap[p]? = some n := by
  rw [List.mem_map]
  constructor
  · rintro ⟨⟨e, _⟩, he, rfl⟩
    obtain ⟨hp, n, hn, -⟩ := (h.list_iff e _).mp (Std.ExtTreeSet.mem_toList.mp he)
    exact ⟨hp, n, hn⟩
  · rintro ⟨hp, n, hn⟩
    have hin : (n.expiration_, p) ∈ q.list_ := (h.list_iff _ p).mpr ⟨hp, n, hn, rfl⟩
    exact ⟨_, Std.ExtTreeSet.mem_toList.mpr hin, rfl⟩

/-- The expired nodes. -/
theorem Good.mem_expired (h : q.Good held) (cut : Time) (a : Addr) :
    a ∈ ptrs (q.list_.toList.filter (expired cut)) ↔
      a ∉ held ∧ ∃ n : TimeNode, q.heap[a]? = some n ∧ n.expiration_ < cut := by
  rw [mem_ptrs]
  constructor
  · rintro ⟨-, ⟨e, _⟩, he, rfl⟩
    rw [List.mem_filter, Std.ExtTreeSet.mem_toList, expired_iff, h.list_iff e _] at he
    obtain ⟨⟨ha, n, hn, rfl⟩, hlt⟩ := he
    exact ⟨ha, n, hn, hlt⟩
  · rintro ⟨ha, n, hn, hlt⟩
    refine ⟨h.ne_zero hn, (n.expiration_, a), ?_, rfl⟩
    rw [List.mem_filter, Std.ExtTreeSet.mem_toList, expired_iff]
    exact ⟨(h.list_iff _ a).mpr ⟨ha, n, hn, rfl⟩, hlt⟩

/-- **`getExpired` holds the expired nodes instead of those of the batch before.** -/
theorem Good.getExpired (h : q.Good (ptrs q.deltimelist ++ held)) (cut : Time) :
    ∃ q', q.getExpired cut = .ok q' ∧ q'.deltimelist = q.list_.toList.filter (expired cut) ∧
      (∀ e ∈ q'.deltimelist, e.2 ≠ 0) ∧ q'.Good (ptrs q'.deltimelist ++ held) ∧
      q'.heap = q.clear.heap ∧ q'.size_ = q.size_ ∧ q'.waitdeltimelist = q.waitdeltimelist := by
  have hc := h.clear
  have hptrs : ∀ a, a ∈ ptrs (q.list_.toList.filter (expired cut)) ↔
      a ∉ held ∧ ∃ n : TimeNode, q.clear.heap[a]? = some n ∧ n.expiration_ < cut := hc.mem_expired cut
  have hlive : ∀ e ∈ q.list_.toList.filter (expired cut),
      ∃ n : TimeNode, q.clear.heap[e.2]? = some n := by
    intro e he
    obtain ⟨-, n, hn, -⟩ :=
      (hc.list_iff e.1 e.2).mp (Std.ExtTreeSet.mem_toList.mp (List.mem_of_mem_filter he))
    exact ⟨n, hn⟩
  have hnull : ∀ e ∈ q.list_.toList.filter (expired cut), e.2 ≠ 0 := by
    intro e he
    obtain ⟨n, hn⟩ := hlive e he
    exact hc.ne_zero hn
  obtain ⟨S, hS, hmemS⟩ := eraseIndices_eq (q.list_.toList.filter (expired cut))
    { q.clear with
      deltimelist := q.list_.toList.filter (expired cut)
      list_ := .ofList (q.list_.toList.filter (!expired cut ·)) pairCmp }
    hlive
  have hmemS : ∀ i p, (i, p) ∈ S ↔ (i, p) ∈ q.indexlist_ ∧
      ∀ n : TimeNode, q.clear.heap[p]? = some n → n.index_ = i →
        ∀ e ∈ q.list_.toList.filter (expired cut), e.2 ≠ p := hmemS
  refine ⟨_, hS, rfl, hnull, ?_, rfl, rfl, rfl⟩
  refine ⟨hc.null, hc.size, hc.distinct, ?_, ?_, ?_, ?_⟩
  · refine List.nodup_append.mpr ⟨?_, hc.nodup, ?_⟩
    · exact (hc.nodup_nodes.sublist ((List.filter_sublist).map _)).filter _
    · rintro a ha b hb rfl
      exact ((hptrs a).mp ha).1 hb
  · intro a ha
    rcases List.mem_append.mp ha with ha | ha
    · obtain ⟨-, n, hn, -⟩ := (hptrs a).mp ha
      exact ⟨n, hn⟩
    · exact hc.live a ha
  · have hmem' : ∀ e a,
        (e, a) ∈ Std.ExtTreeSet.ofList (q.list_.toList.filter (!expired cut ·)) pairCmp ↔
          (e, a) ∈ q.list_ ∧ ¬e < cut := by
      intro e a
      rw [mem_ofList, List.mem_filter, Std.ExtTreeSet.mem_toList, Bool.not_eq_true', Bool.eq_false_iff,
        Ne, expired_iff]
    apply hc.list_iff.move
    · intro a ha
      exact ((hmem' a.1 a.2).mp ha).1
    · intro a n hn hin
      have hp : a ∉ held := ((hc.list_iff _ a).mp hin).1
      have hin : (n.expiration_, a) ∈ q.list_ := hin
      rw [hmem', hptrs, and_iff_right hin]
      constructor
      · rintro hlt ⟨-, m, hm, hmlt⟩
        rw [hn, Option.some.injEq] at hm
        exact hlt (hm ▸ hmlt)
      · intro hout hlt
        exact hout ⟨hp, n, hn, hlt⟩
  · apply hc.index_iff.move
    · intro a ha
      exact ((hmemS a.1 a.2).mp ha).1
    · intro a n hn hin
      have hin : (n.index_, a) ∈ q.indexlist_ := hin
      show (n.index_, a) ∈ S ↔ _
      rw [hmemS, and_iff_right hin, mem_ptrs]
      constructor
      · rintro hes ⟨-, e, he, heq⟩
        exact hes n hn rfl e he heq
      · intro hout m _ _ e he heq
        exact hout ⟨heq ▸ hnull e he, e, he, heq⟩

/-! ### After a batch -/

/-- A held node can be changed, but for its index. -/
theorem Good.change (h : q.Good (p :: held)) (hn : q.heap[p]? = some n) {m : TimeNode}
    (hm : m.index_ = n.index_) : Good { q with heap := q.heap.insert p m } (p :: held) := by
  have hget : ∀ a : Addr, (q.heap.insert p m)[a]? = if a = p then some m else q.heap[a]? :=
    heap_insert q.heap p m
  have hindex : ∀ (a : Addr) (k : TimeNode), (q.heap.insert p m)[a]? = some k →
      ∃ k', q.heap[a]? = some k' ∧ k'.index_ = k.index_ := by
    intro a k hk
    rw [hget] at hk
    split_ifs at hk with ha
    · cases hk
      exact ⟨n, ha ▸ hn, hm.symm⟩
    · exact ⟨k, hk, rfl⟩
  refine ⟨?_, ?_, ?_, h.nodup, ?_, h.list_iff.change m, h.index_iff.change m⟩
  · show (q.heap.insert p m)[0]? = none
    rw [hget, if_neg (h.ne_zero hn).symm, h.null]
  · intro a k hk
    obtain ⟨k', hk', hi⟩ := hindex a k hk
    exact hi ▸ h.size a k' hk'
  · intro a b k l hk hl heq
    obtain ⟨k', hk', hki⟩ := hindex a k hk
    obtain ⟨l', hl', hli⟩ := hindex b l hl
    exact h.distinct a b k' l' hk' hl' (hki.trans (heq.trans hli.symm))
  · intro a ha
    show ∃ k : TimeNode, (q.heap.insert p m)[a]? = some k
    rw [hget]
    split_ifs
    · exact ⟨m, rfl⟩
    · exact h.live a ha

/-- A restart changes the expiration only. -/
theorem restart_same (n : TimeNode) (now : Time) : (n.restart now).index_ = n.index_ ∧
    (n.restart now).repeat_ = n.repeat_ ∧ (n.restart now).interval_ = n.interval_ := by
  unfold TimeNode.restart
  split_ifs
  · exact ⟨rfl, rfl, rfl⟩
  · exact ⟨rfl, rfl, rfl⟩

/-- The node repeats, and no cancel of it was deferred. -/
def again (q : TimerQueue) (n : TimeNode) (p : Addr) : Prop :=
  n.repeat_ ∧ (n.index_, p) ∉ q.waitdeltimelist

instance (q : TimerQueue) (n : TimeNode) (p : Addr) : Decidable (q.again n p) :=
  inferInstanceAs (Decidable (_ ∧ _))

/-- The queue after such a node was restarted and inserted. -/
def reenter (q : TimerQueue) (n : TimeNode) (p : Addr) (now : Time) : TimerQueue :=
  { q with heap := q.heap.insert p (n.restart now) }.enter (n.restart now) p

theorem Good.flashAgain {e : Entry} (h : q.Good (e.2 :: held)) (hn : q.heap[e.2]? = some n)
    (ha : q.again n e.2) (now : Time) :
    flashEntry now e q = .ok ((e.1, 0), q.reenter n e.2 now) ∧ (q.reenter n e.2 now).Good held := by
  have hget : (q.heap.insert e.2 (n.restart now))[e.2]? = some (n.restart now) := by
    rw [heap_insert, if_pos rfl]
  have hchg := h.change hn (restart_same n now).1
  obtain ⟨flag, hins⟩ := hchg.insert hget
  refine ⟨?_, hchg.enter hget⟩
  unfold flashEntry
  rw [deref_eq hn, ok_bind, if_pos (show n.repeat_ = true ∧ _ from ha)]
  dsimp only
  rw [hins]
  rfl

theorem flashRest {e : Entry} (hn : q.heap[e.2]? = some n) (ha : ¬q.again n e.2) (now : Time) :
    flashEntry now e q = .ok (e, q) := by
  unfold flashEntry
  rw [deref_eq hn, ok_bind, if_neg (show ¬(n.repeat_ = true ∧ _) from ha)]
  rfl

/-- What the loop of `fflash` makes of the entries `es` and the queue `q`. -/
structure Flashed (now : Time) (es : List Entry) (q : TimerQueue) (es' : List Entry)
    (q' : TimerQueue) : Prop where
  size : q'.size_ = q.size_
  calling : q'.calling = q.calling
  wait : q'.waitdeltimelist = q.waitdeltimelist
  other : ∀ a : Addr, a ∉ ptrs es → q'.heap[a]? = q.heap[a]? ∧ a ∉ ptrs es'
  again : ∀ (a : Addr) (n : TimeNode), a ∈ ptrs es → q.heap[a]? = some n → q.again n a →
    q'.heap[a]? = some (n.restart now) ∧ a ∉ ptrs es'
  rest : ∀ (a : Addr) (n : TimeNode), a ∈ ptrs es → q.heap[a]? = some n → ¬q.again n a →
    q'.heap[a]? = some n ∧ a ∈ ptrs es'

/-- Every node after it was there before. -/
theorem Flashed.node {now : Time} {es es' : List Entry} {q' : TimerQueue}
    (h : Flashed now es q es' q') (hlive : ∀ a ∈ ptrs es, ∃ n : TimeNode, q.heap[a]? = some n)
    {m : TimeNode} (hm : q'.heap[p]? = some m) :
    ∃ n : TimeNode, q.heap[p]? = some n ∧ (m = n ∨ m = n.restart now ∧ q.again n p) := by
  by_cases hp : p ∈ ptrs es
  · obtain ⟨n, hn⟩ := hlive p hp
    refine ⟨n, hn, ?_⟩
    by_cases ha : q.again n p
    · rw [(h.again p n hp hn ha).1] at hm
      exact .inr ⟨(Option.some.inj hm).symm, ha⟩
    · rw [(h.rest p n hp hn ha).1] at hm
      exact .inl (Option.some.inj hm).symm
  · rw [(h.other p hp).1] at hm
    exact ⟨m, hm, .inl rfl⟩

section

variable {now : Time} {e : Entry} {es es' : List Entry} {q' : TimerQueue}

/-- The first entry lets go of its node. -/
theorem Flashed.cons_again (he : e.2 ≠ 0) (hout : e.2 ∉ ptrs es) (hn : q.heap[e.2]? = some n)
    (ha : q.again n e.2) (h : Flashed now es (q.reenter n e.2 now) es' q') :
    Flashed now (e :: es) q ((e.1, 0) :: es') q' := by
  have hget : ∀ a, (q.reenter n e.2 now).heap[a]? =
      if a = e.2 then some (n.restart now) else q.heap[a]? := heap_insert q.heap e.2 _
  refine ⟨h.size, h.calling, h.wait, ?_, ?_, ?_⟩
  · intro a hmem
    rw [ptrs_cons he, List.mem_cons, not_or] at hmem
    rw [ptrs_null, (h.other a hmem.2).1, hget, if_neg hmem.1]
    exact ⟨rfl, (h.other a hmem.2).2⟩
  · intro a m hmem hm hag
    rw [ptrs_cons he] at hmem
    rw [ptrs_null]
    rcases List.mem_cons.mp hmem with rfl | hmem
    · obtain rfl : n = m := Option.some.inj (hn.symm.trans hm)
      rw [(h.other e.2 hout).1, hget, if_pos rfl]
      exact ⟨rfl, (h.other e.2 hout).2⟩
    · have hae : a ≠ e.2 := fun heq => hout (heq ▸ hmem)
      exact h.again a m hmem (by rw [hget, if_neg hae, hm]) hag
  · intro a m hmem hm hag
    rw [ptrs_cons he] at hmem
    rw [ptrs_null]
    rcases List.mem_cons.mp hmem with rfl | hmem
    · obtain rfl : n = m := Option.some.inj (hn.symm.trans hm)
      exact absurd ha hag
    · have hae : a ≠ e.2 := fun heq => hout (heq ▸ hmem)
      exact h.rest a m hmem (by rw [hget, if_neg hae, hm]) hag

/-- The first entry stays as it is. -/
theorem Flashed.cons_rest (he : e.2 ≠ 0) (hout : e.2 ∉ ptrs es) (hn : q.heap[e.2]? = some n)
    (ha : ¬q.again n e.2) (h : Flashed now es q es' q') : Flashed now (e :: es) q (e :: es') q' := by
  refine ⟨h.size, h.calling, h.wait, ?_, ?_, ?_⟩
  · intro a hmem
    rw [ptrs_cons he, List.mem_cons, not_or] at hmem ⊢
    exact ⟨(h.other a hmem.2).1, hmem.1, (h.other a hmem.2).2⟩
  · intro a m hmem hm hag
    rw [ptrs_cons he] at hmem ⊢
    rcases List.mem_cons.mp hmem with rfl | hmem
    · obtain rfl : n = m := Option.some.inj (hn.symm.trans hm)
      exact absurd hag ha
    · have hae : a ≠ e.2 := fun heq => hout (heq ▸ hmem)
      rw [List.mem_cons, not_or]
      exact ⟨(h.again a m hmem hm hag).1, hae, (h.again a m hmem hm hag).2⟩
  · intro a m hmem hm hag
    rw [ptrs_cons he] at hmem ⊢
    rcases List.mem_cons.mp hmem with rfl | hmem
    · obtain rfl : n = m := Option.some.inj (hn.symm.trans hm)
      exact ⟨(h.other e.2 hout).1.trans hn, List.mem_cons_self⟩
    · exact ⟨(h.rest a m hmem hm hag).1, List.mem_cons_of_mem _ (h.rest a m hmem hm hag).2⟩

end

/-- **The loop of `fflash` lets go of the nodes that it inserts again.** -/
theorem Good.flashEntries (now : Time) : ∀ (es : List Entry) {q : TimerQueue} {held : List Addr},
    q.Good (ptrs es ++ held) → (∀ e ∈ es, e.2 ≠ 0) → ∃ es' q',
      TimerQueue.flashEntries now es q = .ok (es', q') ∧ q'.Good (ptrs es' ++ held) ∧
        Flashed now es q es' q'
  | [], q, held, h, _ =>
    ⟨[], q, rfl, h, rfl, rfl, rfl, fun _ ha => ⟨rfl, ha⟩, fun _ _ ha => absurd ha List.not_mem_nil,
      fun _ _ ha => absurd ha List.not_mem_nil⟩
  | e :: es, q, held, h, hne => by
    have he : e.2 ≠ 0 := hne e List.mem_cons_self
    have hes : ∀ e' ∈ es, e'.2 ≠ 0 := fun e' he' => hne e' (List.mem_cons_of_mem e he')
    rw [ptrs_cons he, List.cons_append] at h
    have hout : e.2 ∉ ptrs es := fun hin =>
      (List.nodup_cons.mp h.nodup).1 (List.mem_append_left held hin)
    obtain ⟨n, hn⟩ := h.live e.2 List.mem_cons_self
    rw [TimerQueue.flashEntries]
    by_cases ha : q.again n e.2
    · obtain ⟨hentry, hgood⟩ := h.flashAgain hn ha now
      obtain ⟨es', q', hes', hgood', hflash⟩ := Good.flashEntries now es hgood hes
      refine ⟨(e.1, 0) :: es', q', ?_, ptrs_null e.1 es' ▸ hgood', hflash.cons_again he hout hn ha⟩
      rw [hentry, ok_bind]
      dsimp only
      rw [hes']
      rfl
    · have hgood : q.Good (ptrs es ++ (e.2 :: held)) := h.perm List.perm_middle.symm
      obtain ⟨es', q', hes', hgood', hflash⟩ := Good.flashEntries now es hgood hes
      have hperm : (ptrs es' ++ (e.2 :: held)).Perm (ptrs (e :: es') ++ held) := by
        rw [ptrs_cons he]
        exact List.perm_middle
      refine ⟨e :: es', q', ?_, hgood'.perm hperm, hflash.cons_rest he hout hn ha⟩
      rw [flashRest hn ha, ok_bind]
      dsimp only
      rw [hes']
      rfl

theorem Good.earliest (h : q.Good held) : ∃ t, q.earliest = .ok t := by
  unfold TimerQueue.earliest
  rcases hl : q.list_.toList with _ | ⟨e, es⟩
  · exact ⟨0, rfl⟩
  · have he : e ∈ q.list_ := Std.ExtTreeSet.mem_toList.mp (hl ▸ List.mem_cons_self)
    obtain ⟨-, n, hn, -⟩ := (h.list_iff e.1 e.2).mp he
    dsimp only [List.head?_cons]
    rw [deref_eq hn]
    exact ⟨_, rfl⟩

theorem Good.fflash (h : q.Good (ptrs q.deltimelist ++ held)) (hne : ∀ e ∈ q.deltimelist, e.2 ≠ 0)
    (now : Time) (r : ResetTimes) : ∃ q', q.fflash now r = .ok q' ∧ q'.Good (ptrs q'.deltimelist ++ held) ∧
      Flashed now q.deltimelist q q'.deltimelist q' := by
  obtain ⟨es', q1, hes, hgood, hflash⟩ := Good.flashEntries now q.deltimelist h hne
  have hgood' : Good { q1 with deltimelist := es' } (ptrs es' ++ held) := hgood.congr rfl rfl rfl rfl
  obtain ⟨t, ht⟩ := hgood'.earliest
  unfold TimerQueue.fflash
  rw [hes, ok_bind]
  dsimp only
  rw [ht, ok_bind, res_pure]
  refine ⟨_, rfl, ?_, ?_⟩
  · split_ifs
    · exact hgood.congr rfl rfl rfl rfl
    · exact hgood'
  · split_ifs
    · exact ⟨hflash.size, hflash.calling, hflash.wait, hflash.other, hflash.again, hflash.rest⟩
    · exact ⟨hflash.size, hflash.calling, hflash.wait, hflash.other, hflash.again, hflash.rest⟩

end TimerQueue

end MuduoSe
