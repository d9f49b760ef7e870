/-
# Buffer::read: when it appends exactly what arrived

`readv` fills the free tail of `buffer_` and then `temp`. If the tail takes
everything, `read` only moves `writeindex_` (`readInto_fits`). Otherwise it moves
`writeindex_` to the end and appends `len - writesize()` bytes of `temp`; but
`writesize()` is 0 by then, so it appends `len` bytes where `readv` put
`len` minus the old free space (`readInto_overflow`). The two agree only if the
tail was empty: `read_exact_iff`, for buffers that stay below `2^31` bytes, where
no `int` overflows (`Valid.ints`).

`read` and `write` take a failed call's -1 for a length (`read_failed`,
`write_failed`).
-/
import MuduoSe.Base.BufferFifo

namespace MuduoSe
namespace Buffer

/-- `append` reads no byte behind the first `n`. -/
theorem append_take (b : Buffer) (buf : Bytes) {n : ℕ} (h : n ≤ buf.length) :
    b.append buf n = b.append (buf.take n) n := by
  have h' : n ≤ (buf.take n).length := by rw [List.length_take]; omega
  rw [append, append, load_take buf h, load_take _ h', List.take_take, Nat.min_self]

section Read

variable (gone live free temp : Bytes) {d : Bytes}

/-- `readv` writes the first bytes behind the unread ones. -/
theorem readv_layout (hd : d.length ≤ free.length + temp.length) :
    readv (layout gone live free) temp (some d) =
      .ok (d.length, gone ++ live ++ d.take free.length ++ free.drop d.length,
        d.drop free.length ++ temp.drop (d.length - free.length)) := by
  have h1 : store (layout gone live free).buffer_ (layout gone live free).writeindex_
      (d.take free.length) = .ok (gone ++ live ++ d.take free.length ++ free.drop d.length) := by
    have hl : (d.take free.length).length = (free.take d.length).length := by
      rw [List.length_take, List.length_take, Nat.min_comm]
    have := store_mid (gone ++ live) (free.take d.length) (free.drop d.length) (d.take free.length) hl
    rwa [List.append_assoc (gone ++ live), List.take_append_drop, List.length_append,
      Int.natCast_add] at this
  have h2 : store temp 0 (d.drop free.length) =
      .ok (d.drop free.length ++ temp.drop (d.length - free.length)) := by
    have hl : (d.drop free.length).length = (temp.take (d.length - free.length)).length := by
      rw [List.length_drop, List.length_take]; omega
    have := store_mid [] (temp.take (d.length - free.length)) (temp.drop (d.length - free.length))
      (d.drop free.length) hl
    rwa [List.nil_append, List.take_append_drop, List.nil_append] at this
  rw [readv, writesize_layout, Int.toNat_natCast, h1, ok_bind, h2, ok_bind, res_pure]

/-- The free tail takes everything: only `writeindex_` moves. -/
theorem readInto_fits (hd : d.length ≤ free.length) :
    readInto (layout gone live free) temp (some d) =
      .ok (d.length, layout gone (live ++ d) (free.drop d.length)) := by
  have e : (⟨(layout gone live free).readindex_, (layout gone live free).writeindex_,
      gone ++ live ++ d ++ free.drop d.length⟩ : Buffer).writesize = free.length := by
    simp only [writesize, writeindex_layout, List.length_append, List.length_drop]
    omega
  rw [readInto, readv_layout gone live free temp (by omega), ok_bind, List.take_of_length_le hd]
  dsimp only
  rw [e, if_pos (by omega), res_pure]
  simp only [layout, List.append_assoc, List.length_append, Int.natCast_add, Int.add_assoc]

/-- The tail is too short: `len` bytes of `temp` are appended behind it. -/
theorem readInto_overflow (hd : d.length ≤ free.length + temp.length) (hlt : free.length < d.length) :
    readInto (layout gone live free) temp (some d) =
      (do let b ← append (layout gone (live ++ d.take free.length) [])
            (d.drop free.length ++ temp.drop (d.length - free.length)) d.length
          return ((d.length : Int), b)) := by
  have hdrop : free.drop d.length = [] := List.drop_eq_nil_of_le hlt.le
  have e : (⟨(layout gone live free).readindex_, (layout gone live free).writeindex_,
      gone ++ live ++ d.take free.length⟩ : Buffer).writesize = free.length := by
    simp only [writesize, writeindex_layout, List.length_append, List.length_take]
    omega
  have e' : (⟨(layout gone live free).readindex_, ((gone ++ live ++ d.take free.length).length : ℕ),
      gone ++ live ++ d.take free.length⟩ : Buffer) = layout gone (live ++ d.take free.length) [] := by
    simp only [layout, List.append_assoc, List.append_nil, List.length_append, Int.natCast_add]
  rw [readInto, readv_layout gone live free temp hd, ok_bind, hdrop, List.append_nil]
  dsimp only
  rw [e, if_neg (by omega), e', writesize_layout]
  simp only [List.length_nil, Int.natCast_zero, Int.sub_zero]

end Read

/-- `read` delivered `d` exactly: it returns `|d|`, the unread bytes are the old
ones and then `d`, and what `temp` held before `readv` filled it is nowhere in the
buffer. -/
def ReadExact (b : Buffer) (d : Bytes) : Prop :=
  ∃ b' : Buffer, b'.Valid ∧ b'.content = b.content ++ d ∧
    ∀ temp : Bytes, temp.length = 1024 → b.readInto temp (some d) = .ok (d.length, b')

/-- In the overflow branch as many bytes come in as were free before and arrived
together, or `temp` is read behind its end. -/
theorem overflow_length {b b' : Buffer} (hv : b.Valid) {d temp : Bytes} {n : Int}
    (hlt : b.writesize < d.length) (hcap : d.length ≤ b.writesize + 1024)
    (ht : temp.length = 1024) (h : b.readInto temp (some d) = .ok (n, b')) :
    n = d.length ∧ b'.Valid ∧
      b'.content.length = b.content.length + b.writesize + d.length := by
  obtain ⟨gone, live, free, rfl⟩ := hv.layout
  rw [writesize_layout] at hlt hcap
  rw [readInto_overflow gone live free temp (by omega) (by omega)] at h
  obtain ⟨b1, h1, h2⟩ := bind_ok h
  rw [res_pure, Except.ok.injEq, Prod.mk.injEq] at h2
  obtain ⟨rfl, rfl⟩ := h2
  -- the copy out of `temp` stays inside it, or the append is a fault
  have hlen : d.length ≤ (d.drop free.length ++ temp.drop (d.length - free.length)).length := by
    rw [append] at h1
    obtain ⟨b2, -, h3⟩ := bind_ok h1
    obtain ⟨src, h4, -⟩ := bind_ok h3
    rw [load] at h4
    split_ifs at h4 with hc
    omega
  obtain ⟨gone', free', happ, -⟩ := append_layout gone (live ++ d.take free.length) []
    (d.drop free.length ++ temp.drop (d.length - free.length)) hlen
  rw [happ, Except.ok.injEq] at h1
  subst h1
  refine ⟨rfl, layout_valid _ _ _, ?_⟩
  rw [content_layout, content_layout, writesize_layout, List.length_append, List.length_append,
    List.length_take, List.length_take]
  omega

theorem read_fits {b : Buffer} (hv : b.Valid) {d : Bytes} (h : d.length ≤ b.writesize) :
    b.ReadExact d := by
  obtain ⟨gone, live, free, rfl⟩ := hv.layout
  rw [writesize_layout] at h
  exact ⟨_, layout_valid _ _ _, by rw [content_layout, content_layout],
    fun temp _ => readInto_fits gone live free temp (by omega)⟩

theorem read_full {b : Buffer} (hv : b.Valid) {d : Bytes} (hpos : 0 < d.length)
    (hcap : d.length ≤ b.writesize + 1024) (h : b.writesize = 0) : b.ReadExact d := by
  obtain ⟨gone, live, free, rfl⟩ := hv.layout
  rw [writesize_layout] at h hcap
  obtain rfl : free = [] := List.length_eq_zero_iff.mp (by omega)
  obtain ⟨gone', free', happ, -⟩ := append_layout gone live [] d le_rfl
  rw [List.take_length] at happ
  refine ⟨layout gone' (live ++ d) free', layout_valid _ _ _, ?_, fun temp ht => ?_⟩
  · rw [content_layout, content_layout]
  · have hov := readInto_overflow gone live [] temp (d := d) (by omega) hpos
    have htake : (d ++ temp.drop d.length).take d.length = d := List.take_left
    simp only [List.length_nil, List.take_zero, List.append_nil, List.drop_zero, Nat.sub_zero] at hov
    rw [hov, append_take _ _ (by rw [List.length_append]; omega), htake, happ, ok_bind, res_pure]

/-- **When `read` is exact.** For what `readv` can deliver into a valid buffer,
`read` appends exactly that if and only if the free tail took all of it or was
empty before. -/
theorem read_exact_iff {b : Buffer} {d : Bytes} (hv : b.Valid) (hpos : 0 < d.length)
    (hcap : d.length ≤ b.writesize + 1024) :
    b.ReadExact d ↔ d.length ≤ b.writesize ∨ b.writesize = 0 := by
  constructor
  · rintro ⟨b', -, hc, hr⟩
    by_contra hn
    have hw : 0 ≤ b.writesize := by have := hv.write_le_size; rw [writesize]; omega
    obtain ⟨-, -, hlen⟩ := overflow_length hv (by omega) hcap List.length_replicate
      (hr (List.replicate 1024 0) List.length_replicate)
    rw [hc, List.length_append] at hlen
    omega
  · rintro (h | h)
    · exact read_fits hv h
    · exact read_full hv hpos hcap h

/-- Five bytes for a buffer with three free and for one with none. -/
theorem read_exact_iff_five :
    ¬ReadExact ⟨0, 1, [65, 0, 0, 0]⟩ (bytes "bcdef") ∧ ReadExact ⟨1, 2, [65, 66]⟩ (bytes "cdefg") :=
  ⟨mt (read_exact_iff (by decide) (by decide) (by decide)).mp (by decide),
    (read_exact_iff (by decide) (by decide) (by decide)).mpr (.inr (by decide))⟩

/-- Two bytes for a buffer with one free: the unread bytes become three, the last
one a byte of `temp` that `readv` did not fill. -/
theorem read_not_exact : ¬∀ (b : Buffer) (d : Bytes), b.Valid → 0 < d.length →
    (d.length : Int) ≤ b.writesize + 1024 → b.ReadExact d := by
  intro h
  obtain ⟨b', -, hc, hr⟩ := h ⟨0, 0, [0]⟩ (bytes "AB") (by decide) (by decide) (by decide)
  obtain ⟨-, -, hlen⟩ := overflow_length (by decide) (by decide) (by decide) List.length_replicate
    (hr (List.replicate 1024 0) List.length_replicate)
  rw [hc, List.length_append] at hlen
  exact absurd hlen (by decide)

/-! ### What the calls return -/

/-- `read` returns what `readv` returned. -/
theorem read_ret {b b' : Buffer} {r : Option Bytes} {n : Int} (h : b.read r = .ok (n, b')) :
    n = sysret (r.map (·.length)) := by
  rw [read, readInto] at h
  obtain ⟨⟨len, mem, temp⟩, hr, h⟩ := bind_ok h
  have hlen : len = sysret (r.map (·.length)) := by
    cases r with
    | none =>
      rw [readv, res_pure, Except.ok.injEq, Prod.mk.injEq] at hr
      exact hr.1.symm
    | some d =>
      rw [readv] at hr
      obtain ⟨m, -, hr⟩ := bind_ok hr
      obtain ⟨m', -, hr⟩ := bind_ok hr
      rw [res_pure, Except.ok.injEq, Prod.mk.injEq] at hr
      exact hr.1.symm
  dsimp only at h
  split_ifs at h with hle
  · rw [res_pure, Except.ok.injEq, Prod.mk.injEq] at h
    exact h.1.symm.trans hlen
  · obtain ⟨b'', -, h⟩ := bind_ok h
    rw [res_pure, Except.ok.injEq, Prod.mk.injEq] at h
    exact h.1.symm.trans hlen

/-- `write` returns what `::write` returned, and that many bytes are no longer unread. -/
theorem write_ret {b b' : Buffer} {r : Option ℕ} {n : Int} {out : Bytes}
    (h : b.write r = .ok (n, out, b')) : n = sysret r ∧ b'.readsize = b.readsize - n := by
  rw [write] at h
  obtain ⟨o, -, h⟩ := bind_ok h
  simp only [res_pure, Except.ok.injEq, Prod.mk.injEq] at h
  obtain ⟨rfl, -, rfl⟩ := h
  refine ⟨rfl, ?_⟩
  simp only [readsize]
  omega

/-! ### Failed calls -/

/-- A failed `readv` takes one byte off the end of the buffer. -/
theorem read_failed (b : Buffer) (h : -1 ≤ b.writesize) :
    b.read none = .ok (-1, { b with writeindex_ := b.writeindex_ - 1 }) := by
  rw [read, readInto, readv, res_pure, ok_bind]
  dsimp only
  rw [if_pos h, res_pure, Int.sub_eq_add_neg]

/-- A failed `::write` puts the byte before the unread ones back in front of them. -/
theorem write_failed {b : Buffer} (h : b.Valid) :
    b.write none = .ok (-1, [], { b with readindex_ := b.readindex_ - 1 }) := by
  obtain ⟨gone, live, free, rfl⟩ := h.layout
  rw [write, load_layout, ok_bind]
  simp only [res_pure, Int.sub_eq_add_neg]
  rfl

end Buffer
end MuduoSe
