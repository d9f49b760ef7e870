/-
# A client that reads responses off a connection

On a connection that is kept, the next response starts where the body of the last one ends, and the
client knows from `Content-Length` where that is. `readReply` reads one response off the bytes that
have arrived; `readReplies` goes on as long as a response is complete, at most as often as the client
has sent requests.

`replies_read`: behind whatever responses a server keeps the connection, the client has at any time
read exactly those that have arrived completely, and is left with the beginning of the next one.

Key definitions: `readReply`, `readReplies`, `KeptResponse`.
Key theorems: `readReply_append`, `reply_read_iff`, `replies_read`.
-/
import MuduoSe.Net.HttpDecode

namespace MuduoSe

open Buffer (kCRLF)

/-- A response with the length of its body, and what stands behind it. -/
def readReply (s : Bytes) : Option (Decoded × Bytes) := do
  let (line, rest) ← Cut.cut kCRLF s
  let (version, status, message) ← decodeStatus line
  let rest' ← (headerSection rest).2
  let fields ← (headerSection rest).1.mapM decodeField
  let length ← fields.lookup (bytes "Content-Length")
  let n ← number length
  if n ≤ rest'.length then some (⟨version, status, message, fields, rest'.take n⟩, rest'.drop n) else none

/-- The responses to `n` requests, as far as they have arrived, and the bytes behind them. -/
def readReplies : ℕ → Bytes → List Decoded × Bytes
  | 0, s => ([], s)
  | n + 1, s =>
    match readReply s with
    | none => ([], s)
    | some (d, s) => (d :: (readReplies n s).1, (readReplies n s).2)

/-- A response behind which the connection is kept, with a body that has a length of at most 13 digits. -/
structure KeptResponse extends PlainResponse where
  kept : closeConnection_ = false
  short : body_.length < 10 ^ 13

namespace KeptResponse

variable (r : KeptResponse)

theorem untruncated : r.Untruncated := by
  refine ⟨r.version_length, fun _ => ?_⟩
  have hlen : (decimal r.body_.length).length ≤ 13 := (decimal_length_iff (by decide)).mpr r.short
  have htext : (bytes "Content-Length: ").length = 16 ∧ (bytes "\r\n").length = 2 := by decide
  unfold contentLength
  simp only [List.length_append, htext]
  omega

theorem status_line : 13 ∉ r.version ++ r.statusMessage_ := by
  unfold HttpResponse.version
  simp only [List.mem_append, not_or]
  exact ⟨⟨⟨⟨⟨by decide, toString_free rfl (by decide) _⟩, by decide⟩, toString_free rfl (by decide) _⟩, by decide⟩,
    r.message_line.1⟩

/-- The first field is the length. -/
theorem lookup_length : r.fields.lookup (bytes "Content-Length") = some (decimal r.body_.length) := by
  unfold HttpResponse.fields
  rw [r.kept]
  rfl

/-- **A response is read as far as it goes, whatever follows.** -/
theorem readReply_text (rest : Bytes) : readReply (r.reply.text ++ rest) = some (r.decoded, rest) := by
  have htext : r.reply.text ++ rest = (r.version ++ r.statusMessage_) ++ kCRLF ++
      ((r.fields.map HttpResponse.headerText).flatten ++ kCRLF ++ (r.body_ ++ rest)) := by
    rw [HttpResponse.reply_text r.untruncated]
    simp only [List.append_assoc]
  unfold readReply
  rw [htext, cut_line r.status_line]
  dsimp only [Option.bind_eq_bind, Option.bind_some]
  rw [HttpResponse.decodeStatus_version, headerSection_fields _ r.fields_plain]
  dsimp only [Option.bind_some]
  rw [decodeFields r.fields_plain]
  dsimp only [Option.bind_some]
  rw [r.lookup_length]
  dsimp only [Option.bind_some]
  rw [number_decimal]
  dsimp only [Option.bind_some]
  rw [if_pos (by simp), List.take_left, List.drop_left]
  rfl

end KeptResponse

/-! ### A response that is not complete -/

/-- Where the end of the header section is found, it is found with more bytes behind. -/
theorem headerSection_append (t : Bytes) : ∀ {s rest : Bytes}, (headerSection s).2 = some rest →
    headerSection (s ++ t) = ((headerSection s).1, some (rest ++ t)) := by
  intro s
  induction hn : s.length using Nat.strongRecOn generalizing s with
  | ind n ih =>
    intro rest h
    rcases hc : Cut.cut kCRLF s with _ | ⟨line, s'⟩
    · rw [headerSection_wait hc] at h
      cases h
    · have happ := Cut.cut_append (t := t) hc (by decide)
      by_cases hl : line = []
      · subst hl
        rw [headerSection_empty hc] at h ⊢
        cases h
        rw [headerSection_empty happ]
      · rw [headerSection_line hc hl] at h ⊢
        have hlt : s'.length < n := hn ▸ Cut.cut_lt hc (by decide)
        rw [headerSection_line happ hl, ih _ hlt rfl h]

/-- What is read does not depend on what follows. -/
theorem readReply_append {s rest : Bytes} {d : Decoded} (h : readReply s = some (d, rest)) (t : Bytes) :
    readReply (s ++ t) = some (d, rest ++ t) := by
  unfold readReply at h
  simp only [Option.bind_eq_bind, Option.bind_eq_some_iff] at h
  obtain ⟨⟨line, s'⟩, hcut, ⟨version, status, message⟩, hstatus, body, hbody, fields, hfields, length, hlength, n,
    hn, h⟩ := h
  unfold readReply
  rw [Cut.cut_append hcut (by decide)]
  dsimp only [Option.bind_eq_bind, Option.bind_some]
  rw [hstatus, headerSection_append t hbody]
  dsimp only [Option.bind_some]
  rw [hfields]
  dsimp only [Option.bind_some]
  rw [hlength]
  dsimp only [Option.bind_some]
  rw [hn]
  dsimp only [Option.bind_some]
  split_ifs at h with hle
  obtain ⟨rfl, rfl⟩ := Prod.mk.inj (Option.some.inj h)
  have hle' : n ≤ (body ++ t).length := by
    rw [List.length_append]
    omega
  rw [if_pos hle', List.take_append_of_le_length hle, List.drop_append_of_le_length hle]

/-- **A response is read once it is there, and no earlier.** -/
theorem reply_read_iff (r : KeptResponse) {p q rest : Bytes} (h : p ++ q = r.reply.text ++ rest) :
    readReply p = if r.reply.text.length ≤ p.length then some (r.decoded, p.drop r.reply.text.length) else none := by
  split_ifs with hle
  · obtain ⟨z, rfl, -⟩ := beyond_of_le h hle
    rw [r.readReply_text, List.drop_left]
  · obtain ⟨y, hy, hne⟩ := inside_of_lt h (not_le.mp hle)
    -- what is read off a part would be read off the whole, with something left
    rcases hp : readReply p with _ | ⟨d, left⟩
    · rfl
    · have hall := readReply_append hp y
      have htext := r.readReply_text []
      rw [List.append_nil, ← hy, hall, Option.some.injEq, Prod.mk.injEq] at htext
      exact absurd (List.append_eq_nil_iff.mp htext.2).2 hne

/-! ### All responses -/

/-- The bytes of some responses. -/
def replyTexts (rs : List KeptResponse) : Bytes := rs.flatMap fun r => r.reply.text

/-- **Whatever has arrived is read**: off the first bytes `p` of some responses the client reads those that
are complete, and it is left with a part of the next one. -/
theorem replies_read : ∀ (rs : List KeptResponse) {p q : Bytes}, p ++ q = replyTexts rs →
    ∃ done todo part, rs = done ++ todo ∧ p = replyTexts done ++ part ∧
      readReplies rs.length p = (done.map fun r => r.decoded, part) ∧ part ++ q = replyTexts todo ∧
      ∀ r ∈ todo.head?, part.length < r.reply.text.length
  | [], p, q, h => by
    obtain ⟨rfl, rfl⟩ := List.append_eq_nil_iff.mp h
    exact ⟨[], [], [], rfl, rfl, rfl, rfl, fun r hr => by cases hr⟩
  | r :: rs, p, q, h => by
    have h : p ++ q = r.reply.text ++ replyTexts rs := h
    have hread := reply_read_iff r h
    rw [List.length_cons, readReplies]
    by_cases hle : r.reply.text.length ≤ p.length
    · obtain ⟨z, rfl, hz⟩ := beyond_of_le h hle
      rw [if_pos hle, List.drop_left] at hread
      obtain ⟨done, todo, part, hrs, hp, hreplies, hpart, hlt⟩ := replies_read rs hz
      refine ⟨r :: done, todo, part, by rw [hrs]; rfl, ?_, ?_, hpart, hlt⟩
      · show r.reply.text ++ z = (r.reply.text ++ replyTexts done) ++ part
        rw [hp, List.append_assoc]
      · rw [hread]
        dsimp only
        rw [hreplies]
        rfl
    · rw [if_neg hle] at hread
      rw [hread]
      exact ⟨[], r :: rs, p, rfl, rfl, rfl, h, fun r' hr' => Option.some.inj hr' ▸ not_le.mp hle⟩

end MuduoSe
