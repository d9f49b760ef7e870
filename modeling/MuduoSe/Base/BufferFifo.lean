/-
# Buffer is a byte queue

A valid `Buffer` (`0 ≤ readindex_ ≤ writeindex_ ≤ buffer_.size()`) is laid out as
consumed bytes, unread bytes, free bytes (`Valid.layout`); what it stands for is
the unread part, `content`. On a layout every operation is an equation between
lists: `append` adds to the end of `content`, `retrieve`, `retrieveUntil` and
`write` take from its front, whether `append` fits, compacts or grows.

`buffer_fifo`: any run of these operations from a new buffer keeps the indices
valid, never copies outside an array, and loses, repeats or reorders no byte.
`read_exact_iff`: `read` appends what `readv` delivered only if the free tail took
all of it or was empty. When the tail has room but not enough,
`append(temp, len - writesize())` runs after `writeindex_` has moved, so it copies
`len` bytes of `temp` where `readv` filled fewer.

Key definitions: `Buffer.Valid`, `Buffer.content`, `Buffer.layout`, `fifo`.
-/
import MuduoSe.Base.Buffer

namespace MuduoSe

theorem load_mid (a b c : Bytes) : load (a ++ b ++ c) a.length b.length = .ok b := by
  rw [load, if_pos (by simp only [List.length_append]; omega)]
  simp

theorem load_take (buf : Bytes) {n : ℕ} (h : n ≤ buf.length) : load buf 0 n = .ok (buf.take n) := by
  rw [load, if_pos (by omega)]
  simp

theorem store_mid (a b c src : Bytes) (h : src.length = b.length) :
    store (a ++ b ++ c) a.length src = .ok (a ++ src ++ c) := by
  rw [store, if_pos (by simp only [List.length_append]; omega)]
  simp [h]

namespace Buffer

/-- The unread bytes: from `peek()` to `beginWrite()`. -/
def content (b : Buffer) : Bytes := (b.buffer_.drop b.readindex_.toNat).take b.readsize.toNat

structure Valid (b : Buffer) : Prop where
  read_nonneg : 0 ≤ b.readindex_
  read_le_write : b.readindex_ ≤ b.writeindex_
  write_le_size : b.writeindex_ ≤ b.buffer_.length

instance (b : Buffer) : Decidable b.Valid :=
  decidable_of_iff (0 ≤ b.readindex_ ∧ b.readindex_ ≤ b.writeindex_ ∧ b.writeindex_ ≤ b.buffer_.length)
    ⟨fun ⟨h1, h2, h3⟩ => ⟨h1, h2, h3⟩, fun h => ⟨h.1, h.2, h.3⟩⟩

/-- A valid buffer by its parts: what was consumed, what is unread, what is free. -/
def layout (gone live free : Bytes) : Buffer :=
  ⟨gone.length, gone.length + live.length, gone ++ live ++ free⟩

section Layout

variable (gone live free : Bytes)

@[simp] theorem readindex_layout : (layout gone live free).readindex_ = gone.length := rfl

@[simp] theorem writeindex_layout :
    (layout gone live free).writeindex_ = gone.length + live.length := rfl

@[simp] theorem buffer_layout : (layout gone live free).buffer_ = gone ++ live ++ free := rfl

@[simp] theorem readsize_layout : (layout gone live free).readsize = live.length := by
  rw [readsize, writeindex_layout, readindex_layout]; omega

@[simp] theorem writesize_layout : (layout gone live free).writesize = free.length := by
  rw [writesize, writeindex_layout, buffer_layout, List.length_append, List.length_append]; omega

@[simp] theorem content_layout : (layout gone live free).content = live := by
  simp [content]

theorem layout_valid : (layout gone live free).Valid :=
  ⟨Int.natCast_nonneg _, by rw [writeindex_layout, readindex_layout]; omega,
    by rw [writeindex_layout, buffer_layout, List.length_append, List.length_append]; omega⟩

theorem load_layout : load (layout gone live free).buffer_ (layout gone live free).readindex_
    (layout gone live free).readsize = .ok live := by
  rw [readsize_layout]
  exact load_mid gone live free

end Layout

/-- Every valid buffer is a layout. -/
theorem Valid.layout {b : Buffer} (h : b.Valid) : ∃ gone live free, b = layout gone live free := by
  obtain ⟨r, w, mem⟩ := b
  obtain ⟨h1, h2, h3⟩ := h
  simp only at h1 h2 h3
  obtain ⟨r, rfl⟩ := Int.eq_ofNat_of_zero_le h1
  obtain ⟨n, hn⟩ := Int.eq_ofNat_of_zero_le (Int.sub_nonneg.mpr h2)
  obtain rfl : w = r + n := by omega
  refine ⟨mem.take r, (mem.drop r).take n, (mem.drop r).drop n, ?_⟩
  have hr : (mem.take r).length = r := by rw [List.length_take]; omega
  have hl : ((mem.drop r).take n).length = n := by rw [List.length_take, List.length_drop]; omega
  simp [Buffer.layout, hr, hl]

theorem Valid.readsize_eq {b : Buffer} (h : b.Valid) : b.readsize = b.content.length := by
  obtain ⟨gone, live, free, rfl⟩ := h.layout
  simp

theorem new_layout (n : ℕ) : new n = layout [] [] (List.replicate n 0) := by
  simp [new, layout]

theorem new_valid (n : ℕ) : (new n).Valid := new_layout n ▸ layout_valid _ _ _

@[simp] theorem content_new (n : ℕ) : (new n).content = [] := by rw [new_layout, content_layout]

/-- While the vector is below `2^31` bytes, every `int` of the class is in range. -/
theorem Valid.ints {b : Buffer} (h : b.Valid) (hs : b.buffer_.length < 2 ^ 31) :
    ∀ x ∈ [b.readindex_, b.writeindex_, b.readsize, b.writesize, b.writesize + b.readindex_],
      0 ≤ x ∧ x < 2 ^ 31 := by
  obtain ⟨h1, h2, h3⟩ := h
  simp only [readsize, writesize, List.forall_mem_cons, List.not_mem_nil, false_imp_iff,
    implies_true, and_true]
  omega

/-! ### append -/

theorem swap_layout (gone live free : Bytes) :
    swap (layout gone live free) = .ok (layout [] live ((gone ++ live ++ free).drop live.length)) := by
  have hst : store (gone ++ live ++ free) 0 live =
      .ok (live ++ (gone ++ live ++ free).drop live.length) := by
    rw [store, if_pos (by simp only [List.length_append]; omega)]
    simp
  have hl : load (layout gone live free).buffer_ (layout gone live free).readindex_
      ((layout gone live free).writeindex_ - (layout gone live free).readindex_) = .ok live :=
    load_layout gone live free
  rw [swap, hl, ok_bind, buffer_layout, hst, ok_bind, readsize_layout]
  simp [layout]

theorem resize_layout (gone live free : Bytes) (n : ℕ) :
    resize (layout gone live free) n = layout gone live (free ++ List.replicate (n + 1) 0) := by
  have hn : (((layout gone live free).buffer_.length : Int) + n + 1).toNat =
      (gone ++ live ++ free).length + (n + 1) := by rw [buffer_layout]; omega
  rw [resize, hn, vectorResize, buffer_layout, List.take_of_length_le (by simp), Nat.add_sub_cancel_left]
  simp [layout]

/-- After `makeRoom` the unread bytes are the same and `n` bytes fit behind them. -/
theorem makeRoom_layout (gone live free : Bytes) (n : ℕ) : ∃ gone' free',
    makeRoom (layout gone live free) n = .ok (layout gone' live free') ∧ n ≤ free'.length ∧
      (gone ++ live ++ free).length ≤ (gone' ++ live ++ free').length := by
  rw [makeRoom, writesize_layout, readindex_layout]
  by_cases h1 : (n : Int) > free.length ∧ (n : Int) ≤ free.length + gone.length
  · rw [if_pos h1, swap_layout]
    refine ⟨[], _, rfl, ?_, ?_⟩ <;>
      simp only [List.length_append, List.length_drop, List.length_nil] <;> omega
  · rw [if_neg h1]
    by_cases h2 : (n : Int) > free.length + gone.length
    · rw [if_pos h2, resize_layout]
      refine ⟨gone, _, rfl, ?_, ?_⟩ <;>
        simp only [List.length_append, List.length_replicate] <;> omega
    · rw [if_neg h2]
      exact ⟨gone, free, rfl, by omega, le_rfl⟩

theorem append_layout (gone live free buf : Bytes) {n : ℕ} (hn : n ≤ buf.length) : ∃ gone' free',
    append (layout gone live free) buf n = .ok (layout gone' (live ++ buf.take n) free') ∧
      (gone ++ live ++ free).length ≤ (gone' ++ (live ++ buf.take n) ++ free').length := by
  obtain ⟨gone', free', hroom, hfree, hgrow⟩ := makeRoom_layout gone live free n
  refine ⟨gone', free'.drop n, ?_, ?_⟩
  · have hlen : (buf.take n).length = n := by rw [List.length_take]; omega
    have hst : store (gone' ++ live ++ free') ((gone' ++ live).length) (buf.take n) =
        .ok (gone' ++ live ++ buf.take n ++ free'.drop n) := by
      have := store_mid (gone' ++ live) (free'.take n) (free'.drop n) (buf.take n)
        (by rw [List.length_take, List.length_take]; omega)
      rwa [List.append_assoc, List.take_append_drop] at this
    rw [append, hroom, ok_bind, load_take buf hn, ok_bind, buffer_layout, writeindex_layout]
    rw [List.length_append, Int.natCast_add] at hst
    rw [hst, ok_bind, res_pure]
    simp only [layout, List.append_assoc, List.length_append, hlen]
    congr 2
    omega
  · simp only [List.length_append, List.length_take, List.length_drop] at *
    omega

/-- **`append` adds its bytes at the end.** -/
theorem append_spec {b : Buffer} (h : b.Valid) (buf : Bytes) {n : ℕ} (hn : n ≤ buf.length) :
    ∃ b', b.append buf n = .ok b' ∧ b'.Valid ∧ b'.content = b.content ++ buf.take n ∧
      b.buffer_.length ≤ b'.buffer_.length := by
  obtain ⟨gone, live, free, rfl⟩ := h.layout
  obtain ⟨gone', free', happ, hgrow⟩ := append_layout gone live free buf hn
  exact ⟨_, happ, layout_valid _ _ _, by simp, hgrow⟩

theorem appendString_spec {b : Buffer} (h : b.Valid) (buf : Bytes) :
    ∃ b', b.appendString buf = .ok b' ∧ b'.Valid ∧ b'.content = b.content ++ buf ∧
      b.buffer_.length ≤ b'.buffer_.length := by
  simpa [appendString] using append_spec h buf le_rfl

/-! ### Taking bytes out -/

/-- Moving `readindex_` by `n` hands `n` unread bytes over to the consumed ones. -/
theorem advance_layout (gone live free : Bytes) {n : ℕ} (hn : n ≤ live.length) :
    (⟨gone.length + n, gone.length + live.length, gone ++ live ++ free⟩ : Buffer) =
      layout (gone ++ live.take n) (live.drop n) free := by
  have hlen : (live.take n).length = n := by rw [List.length_take]; omega
  simp only [layout, List.length_append, hlen, List.length_drop]
  congr 1
  · omega
  · rw [List.append_assoc gone (live.take n), List.take_append_drop]

/-- **`retrieve` takes its bytes from the front.** -/
theorem retrieve_spec {b : Buffer} (h : b.Valid) {n : ℕ} (hn : n ≤ b.content.length) :
    ∃ b', b.retrieve n = .ok b' ∧ b'.Valid ∧ b'.content = b.content.drop n ∧
      b'.buffer_ = b.buffer_ := by
  obtain ⟨gone, live, free, rfl⟩ := h.layout
  rw [content_layout] at hn
  have hs : sizeT (layout gone live free).readsize = live.length := by simp [sizeT]
  rw [retrieve, hs, check_pos hn, ok_bind]
  by_cases hlt : n < live.length
  · refine ⟨layout (gone ++ live.take n) (live.drop n) free, ?_, layout_valid _ _ _, by simp, by simp⟩
    rw [if_pos hlt, ← advance_layout gone live free hn]
    rfl
  · rw [if_neg hlt, res_pure]
    refine ⟨_, rfl, ⟨Int.le_refl 0, Int.le_refl 0, Int.natCast_nonneg _⟩, ?_, rfl⟩
    rw [content_layout, List.drop_eq_nil_of_le (by omega)]
    simp [content, readsize]

/-- `retrieveUntil` with a pointer `n` bytes behind `peek()`. -/
theorem retrieveUntil_spec {b : Buffer} (h : b.Valid) {n : ℕ} (hn : n ≤ b.content.length) :
    ∃ b', b.retrieveUntil (b.peek + n) = .ok b' ∧ b'.Valid ∧ b'.content = b.content.drop n ∧
      b'.buffer_ = b.buffer_ := by
  have hr := h.readsize_eq
  have h1 : b.peek ≤ b.peek + n := by omega
  have h2 : b.peek + n ≤ b.beginWrite := by simp only [peek, beginWrite, readsize] at *; omega
  have h3 : sizeT (b.peek + n - b.peek) = n := by rw [sizeT_of_nonneg (by omega)]; omega
  rw [retrieveUntil, check_pos h1, ok_bind, check_pos h2, ok_bind, h3]
  exact retrieve_spec h hn

/-- **`write` takes what the kernel took from the front.** -/
theorem write_spec {b : Buffer} (h : b.Valid) {n : ℕ} (hn : n ≤ b.content.length) :
    ∃ b', b.write (some n) = .ok ((n : Int), b.content.take n, b') ∧ b'.Valid ∧
      b'.content = b.content.drop n ∧ b'.buffer_ = b.buffer_ := by
  obtain ⟨gone, live, free, rfl⟩ := h.layout
  rw [content_layout] at hn
  refine ⟨layout (gone ++ live.take n) (live.drop n) free, ?_, layout_valid _ _ _, by simp, by simp⟩
  rw [write, load_layout, ok_bind, content_layout, ← advance_layout gone live free hn]
  rfl

/-! ### Runs of the operations -/

/-- The operations of the byte stream, with what the caller or the kernel chose. -/
inductive Op
  | append (buf : Bytes) (len : ℕ)
  | appendString (buf : Bytes)
  | appendVector (buf : Bytes)
  | retrieve (len : ℕ)
  | retrieveUntil (stop : Int)
  | write (n : ℕ)
  deriving DecidableEq, Repr

/-- A buffer with what was appended to it and what was taken out of it so far. -/
structure Stream where
  buf : Buffer
  appended : Bytes
  taken : Bytes
  deriving DecidableEq, Repr

def Stream.start (cap : ℕ) : Stream := ⟨new cap, [], []⟩

/-- A caller appends from an array that has the bytes, takes out at most what is
unread, and the kernel takes at most what it is offered. -/
def fifo : System Stream Op Fault where
  guard st
    | .append buf len => len ≤ buf.length
    | .appendString _ => True
    | .appendVector _ => True
    | .retrieve len => (len : Int) ≤ st.buf.readsize
    | .retrieveUntil stop => st.buf.peek ≤ stop ∧ stop ≤ st.buf.beginWrite
    | .write n => (n : Int) ≤ st.buf.readsize
  step st
    | .append buf len => do
      let b ← st.buf.append buf len
      return ⟨b, st.appended ++ buf.take len, st.taken⟩
    | .appendString buf => do
      let b ← st.buf.appendString buf
      return ⟨b, st.appended ++ buf, st.taken⟩
    | .appendVector buf => do
      let b ← st.buf.appendVector buf
      return ⟨b, st.appended ++ buf, st.taken⟩
    | .retrieve len => do
      let b ← st.buf.retrieve len
      return ⟨b, st.appended, st.taken ++ st.buf.content.take len⟩
    | .retrieveUntil stop => do
      let b ← st.buf.retrieveUntil stop
      return ⟨b, st.appended, st.taken ++ st.buf.content.take (stop - st.buf.peek).toNat⟩
    | .write n => do
      let (_, out, b) ← st.buf.write (some n)
      return ⟨b, st.appended, st.taken ++ out⟩

instance (st : Stream) : (op : Op) → Decidable (fifo.guard st op)
  | .append buf len => inferInstanceAs (Decidable (len ≤ buf.length))
  | .appendString _ => inferInstanceAs (Decidable True)
  | .appendVector _ => inferInstanceAs (Decidable True)
  | .retrieve len => inferInstanceAs (Decidable ((len : Int) ≤ st.buf.readsize))
  | .retrieveUntil stop => inferInstanceAs (Decidable (st.buf.peek ≤ stop ∧ stop ≤ st.buf.beginWrite))
  | .write n => inferInstanceAs (Decidable ((n : Int) ≤ st.buf.readsize))

/-- What a run keeps: the indices are valid, and taken then unread is appended. -/
structure Stream.Good (st : Stream) : Prop where
  valid : st.buf.Valid
  fifo : st.taken ++ st.buf.content = st.appended

theorem Stream.start_good (cap : ℕ) : (Stream.start cap).Good :=
  ⟨new_valid cap, by simp [Stream.start]⟩

theorem Stream.Good.put {st : Stream} (h : st.Good) {b : Buffer} {buf : Bytes} (hv : b.Valid)
    (hc : b.content = st.buf.content ++ buf) : Stream.Good ⟨b, st.appended ++ buf, st.taken⟩ :=
  ⟨hv, by rw [hc, ← List.append_assoc, h.fifo]⟩

theorem Stream.Good.take {st : Stream} (h : st.Good) {b : Buffer} {n : ℕ} (hv : b.Valid)
    (hc : b.content = st.buf.content.drop n) :
    Stream.Good ⟨b, st.appended, st.taken ++ st.buf.content.take n⟩ :=
  ⟨hv, by rw [hc, List.append_assoc, List.take_append_drop, h.fifo]⟩

/-- Every operation that can be called returns, and keeps the invariant. -/
theorem fifo_step {st : Stream} (h : st.Good) {op : Op} (hg : fifo.guard st op) :
    ∃ st', fifo.step st op = .ok st' ∧ st'.Good := by
  have hr := h.valid.readsize_eq
  cases op with
  | append buf len =>
    obtain ⟨b, hb, hv, hc, -⟩ := append_spec h.valid buf hg
    exact ⟨_, by simp only [fifo, hb, ok_bind, res_pure], h.put hv hc⟩
  | appendString buf =>
    obtain ⟨b, hb, hv, hc, -⟩ := appendString_spec h.valid buf
    exact ⟨_, by simp only [fifo, hb, ok_bind, res_pure], h.put hv hc⟩
  | appendVector buf =>
    obtain ⟨b, hb, hv, hc, -⟩ := appendString_spec h.valid buf
    have hb : st.buf.appendVector buf = .ok b := hb
    exact ⟨_, by simp only [fifo, hb, ok_bind, res_pure], h.put hv hc⟩
  | retrieve len =>
    have hg : (len : Int) ≤ st.buf.readsize := hg
    obtain ⟨b, hb, hv, hc, -⟩ := retrieve_spec h.valid (n := len) (by omega)
    exact ⟨_, by simp only [fifo, hb, ok_bind, res_pure], h.take hv hc⟩
  | retrieveUntil stop =>
    obtain ⟨h1, h2⟩ : st.buf.peek ≤ stop ∧ stop ≤ st.buf.beginWrite := hg
    have hstop : stop = st.buf.peek + (stop - st.buf.peek).toNat := by omega
    obtain ⟨b, hb, hv, hc, -⟩ := retrieveUntil_spec h.valid (n := (stop - st.buf.peek).toNat)
      (by simp only [readsize, peek, beginWrite] at *; omega)
    rw [← hstop] at hb
    exact ⟨_, by simp only [fifo, hb, ok_bind, res_pure], h.take hv hc⟩
  | write n =>
    have hg : (n : Int) ≤ st.buf.readsize := hg
    obtain ⟨b, hb, hv, hc, -⟩ := write_spec h.valid (n := n) (by omega)
    exact ⟨_, by simp only [fifo, hb, ok_bind, res_pure], h.take hv hc⟩

theorem fifo_good {cap : ℕ} {ops : List Op} {st : Stream} (h : fifo.Run (.start cap) ops st) :
    st.Good := by
  refine h.invariant (fun {s t op} hs hg ht => ?_) (Stream.start_good cap)
  obtain ⟨t', ht', hgood⟩ := fifo_step hs hg
  rw [ht', Except.ok.injEq] at ht
  exact ht ▸ hgood

/-- **Buffer is a loss-free byte queue.** After any operations on a buffer of any
capacity the indices are valid, what was taken out followed by what is unread is
what was appended, the next operation returns without leaving an array, and below
`2^31` bytes the `int`s are in range. -/
theorem buffer_fifo (cap : ℕ) {ops : List Op} {st : Stream} (h : fifo.Run (.start cap) ops st) :
    st.buf.Valid ∧ st.taken ++ st.buf.content = st.appended ∧
      (∀ op, fifo.guard st op → ∃ st', fifo.step st op = .ok st') ∧
      (st.buf.buffer_.length < 2 ^ 31 →
        ∀ x ∈ [st.buf.readindex_, st.buf.writeindex_, st.buf.readsize, st.buf.writesize,
          st.buf.writesize + st.buf.readindex_], 0 ≤ x ∧ x < 2 ^ 31) := by
  have hgood := fifo_good h
  refine ⟨hgood.valid, hgood.fifo, fun op hg => ?_, hgood.valid.ints⟩
  obtain ⟨st', hst', -⟩ := fifo_step hgood hg
  exact ⟨st', hst'⟩

/-- A buffer of 4 bytes that is written from, compacted and grown. -/
theorem buffer_fifo_regimes : ∃ st, fifo.Run (.start 4)
      [.append (bytes "abcd") 3, .write 2, .appendString (bytes "ef"), .retrieve 1,
        .appendVector (bytes "ghij"), .retrieveUntil 2] st ∧
    st.taken ++ st.buf.content = bytes "abcefghij" := by
  have h : fifo.Run (.start 4) [.append (bytes "abcd") 3, .write 2, .appendString (bytes "ef"),
      .retrieve 1, .appendVector (bytes "ghij"), .retrieveUntil 2]
      ⟨⟨2, 7, bytes "cefghij" ++ [0, 0]⟩, bytes "abcefghij", bytes "abce"⟩ :=
    fifo.exec_iff.mp (by decide)
  exact ⟨_, h, (buffer_fifo 4 h).2.1⟩

end Buffer
end MuduoSe
