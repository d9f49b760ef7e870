/-
# Addresses as they are written

`net/IpAdress.cc`: `toip` reads `a.b.c.d:port` and `fromip` writes it. `inet_pton` and `inet_ntop` are those of
the C library for `AF_INET`, `stoi` is that of C++.

* `ipAdress_round_trip`: every address is read back as it was written, whatever the object held before.
* `toip_reads`: what `toip` makes of any host and any number behind the first colon. A host that is no
  address is not reported: the old one stays; a port wraps around at 65536; and what stands behind the
  port is not looked at, up to a second colon or not.

Key definitions: `SockaddrIn`, `IpAdress.toip`, `IpAdress.fromip`, `inetPton`, `stoi`.
Key theorems: `inetPton_inetNtop`, `stoi_decimal`, `toip_reads`, `ipAdress_round_trip`.
-/
import MuduoSe.Net.Decimal
import MuduoSe.Net.Uilt

namespace MuduoSe

/-- `struct in_addr`: the four bytes in the order of the network. -/
structure InAddr where
  b1 : Byte
  b2 : Byte
  b3 : Byte
  b4 : Byte
  deriving DecidableEq, Repr

/-- `AF_INET` -/
def afInet : ℕ := 2

/-- `struct sockaddr_in`, with the port in the order of the network. -/
structure SockaddrIn where
  sin_family : ℕ
  sin_port : UInt16
  sin_addr : InAddr
  deriving DecidableEq, Repr

/-- What `toip` throws or runs into. -/
inductive ToipError
  /-- The second token is used and there is none. -/
  | pastEnd
  /-- `std::invalid_argument` of `stoi`. -/
  | invalidArgument
  /-- `std::out_of_range` of `stoi`. -/
  | outOfRange
  deriving DecidableEq, Repr

/-- The two bytes are swapped. -/
def htons (n : UInt16) : UInt16 := .ofNat (n.toNat % 256 * 256 + n.toNat / 256)

def ntohs (n : UInt16) : UInt16 := htons n

/-- A decimal number of up to three digits, from 0 to 255 and without a leading zero. -/
def octet (s : Bytes) : Option Byte :=
  if s.length ≤ 3 ∧ (s.length = 1 ∨ s.head? ≠ some 48) then
    (number s).bind fun n => if n ≤ 255 then some (.ofNat n) else none
  else none

/-- `inet_pton(AF_INET, src, &addr)`: what is written to `addr`, if `src` is an address. -/
def inetPton (src : Bytes) : Option InAddr :=
  match src.splitOn 46 with
  | [s1, s2, s3, s4] => do return ⟨← octet s1, ← octet s2, ← octet s3, ← octet s4⟩
  | _ => none

/-- `inet_ntop(AF_INET, &addr, ..)` -/
def inetNtop (a : InAddr) : Bytes :=
  [46].intercalate [decimal a.b1.toNat, decimal a.b2.toNat, decimal a.b3.toNat, decimal a.b4.toNat]

def isSpace (c : Byte) : Bool := c == 32 || 9 ≤ c && c ≤ 13

/-- The sign of a number, and what is behind it. -/
def signOf : Bytes → Bool × Bytes
  | 45 :: s => (true, s)
  | 43 :: s => (false, s)
  | s => (false, s)

/-- `std::stoi(s)`: blanks, a sign, digits, and anything behind them. -/
def stoi (s : Bytes) : Except ToipError ℤ :=
  let (negative, s) := signOf (s.dropWhile isSpace)
  match number (s.takeWhile isDigit) with
  | none => .error .invalidArgument
  | some n =>
    let v : ℤ := if negative then -n else n
    if -2147483648 ≤ v ∧ v < 2147483648 then .ok v else .error .outOfRange

namespace IpAdress

open Uilt

/-- The first two tokens between the colons; the last token is none if it is empty. -/
def tokens (ip : Bytes) : Bytes × Option Bytes :=
  match Cut.cut [58] ip with
  | none => (ip, none)
  | some (host, rest) =>
    match Cut.cut [58] rest with
    | some (port, _) => (host, some port)
    | none => (host, if rest = [] then none else some rest)

/-- `toip(ip)`, on an object that holds `a`. -/
def toip (a : SockaddrIn) (ip : Bytes) : Except ToipError SockaddrIn := do
  let (host, port) := tokens ip
  let a := { a with sin_family := afInet }
  let a := { a with sin_addr := (inetPton (cString host)).getD a.sin_addr }
  match port with
  | none => .error .pastEnd
  | some port => do
    let v ← stoi port
    return { a with sin_port := htons (.ofInt v) }

def fromip (a : SockaddrIn) : Bytes := inetNtop a.sin_addr ++ bytes ":" ++ decimal (ntohs a.sin_port).toNat

/-- `IpAdress(uint16_t port)`, all interfaces. -/
def ofPort (port : UInt16) : SockaddrIn := ⟨afInet, htons port, ⟨0, 0, 0, 0⟩⟩

end IpAdress

/-! ### The parts -/

theorem ntohs_htons (n : UInt16) : ntohs (htons n) = n := by
  have hn := n.toNat_lt
  apply UInt16.toNat_inj.mp
  have hswap : (htons n).toNat = n.toNat % 256 * 256 + n.toNat / 256 := by
    unfold htons
    rw [UInt16.toNat_ofNat', Nat.mod_eq_of_lt (by omega)]
  have hlow : (n.toNat % 256 * 256 + n.toNat / 256) % 256 = n.toNat / 256 := by omega
  have hhigh : (n.toNat % 256 * 256 + n.toNat / 256) / 256 = n.toNat % 256 := by omega
  show (UInt16.ofNat ((htons n).toNat % 256 * 256 + (htons n).toNat / 256)).toNat = n.toNat
  rw [hswap, hlow, hhigh, UInt16.toNat_ofNat', Nat.mod_eq_of_lt (by omega)]
  omega

/-- A byte is read back as it was written. -/
theorem octet_decimal (b : Byte) : octet (decimal b.toNat) = some b := by
  have hall : ∀ n < 256, octet (decimal n) = some (.ofNat n) := by
    decide +kernel
  rw [hall _ b.toNat_lt, UInt8.ofNat_toNat]

theorem inetPton_inetNtop (a : InAddr) : inetPton (inetNtop a) = some a := by
  have hfree : ∀ s ∈ [decimal a.b1.toNat, decimal a.b2.toNat, decimal a.b3.toNat, decimal a.b4.toNat],
      (46 : Byte) ∉ s := by
    have hdot : ∀ n, (46 : Byte) ∉ decimal n := decimal_free (by decide)
    simp [hdot]
  unfold inetPton inetNtop
  rw [List.splitOn_intercalate 46 hfree (List.cons_ne_nil _ _)]
  simp [octet_decimal]

theorem isSpace_digit {c : Byte} (hc : isDigit c = true) : isSpace c = false := by
  unfold isDigit at hc
  unfold isSpace
  rw [Bool.and_eq_true, decide_eq_true_eq, decide_eq_true_eq, UInt8.le_iff_toNat_le, UInt8.le_iff_toNat_le] at hc
  simp only [Bool.or_eq_false_iff, Bool.and_eq_false_iff, decide_eq_false_iff_not, beq_eq_false_iff_ne, ne_eq,
    ← UInt8.toNat_inj, UInt8.le_iff_toNat_le]
  have h48 : (48 : Byte).toNat = 48 := rfl
  have h57 : (57 : Byte).toNat = 57 := rfl
  have h32 : (32 : Byte).toNat = 32 := rfl
  have h13 : (13 : Byte).toNat = 13 := rfl
  omega

/-- A digit is no sign. -/
theorem signOf_digit {c : Byte} (hc : isDigit c = true) {s : Bytes} : signOf (c :: s) = (false, c :: s) := by
  unfold signOf
  split
  · rename_i heq
    rw [(List.cons.inj heq).1] at hc
    exact absurd hc (by decide)
  · rename_i heq
    rw [(List.cons.inj heq).1] at hc
    exact absurd hc (by decide)
  · rfl

/-- A number that fits is read, whatever stands behind it. -/
theorem stoi_decimal {n : ℕ} (hn : n < 2147483648) {rest : Bytes} (hrest : ∀ c ∈ rest.head?, isDigit c = false) :
    stoi (decimal n ++ rest) = .ok (n : ℤ) := by
  obtain ⟨c, s, hs⟩ := List.exists_cons_of_ne_nil (decimal_ne_nil n)
  have hc : isDigit c = true := decimal_digits c (by rw [hs]; exact List.mem_cons_self)
  have hsign : signOf ((decimal n ++ rest).dropWhile isSpace) = (false, decimal n ++ rest) := by
    rw [hs, List.cons_append, List.dropWhile_cons_of_neg (by rw [isSpace_digit hc]; decide)]
    exact signOf_digit hc
  have hdigits : (decimal n ++ rest).takeWhile isDigit = decimal n := by
    rw [List.takeWhile_append_of_pos decimal_digits]
    cases rest with
    | nil => rw [List.takeWhile_nil, List.append_nil]
    | cons d rest =>
      rw [List.takeWhile_cons_of_neg (by rw [hrest d rfl]; decide), List.append_nil]
  unfold stoi
  rw [hsign]
  dsimp only
  rw [hdigits, number_decimal]
  dsimp only
  rw [if_neg Bool.false_ne_true, if_pos (by omega)]

namespace IpAdress

open Uilt

/-- A number behind the first colon begins the second token. -/
theorem tokens_port {host : Bytes} (hhost : 58 ∉ host) (n : ℕ) (rest : Bytes) :
    ∃ tail, tokens (host ++ bytes ":" ++ (decimal n ++ rest)) = (host, some (decimal n ++ tail)) ∧ tail <+: rest := by
  have hcut : Cut.cut [58] (host ++ bytes ":" ++ (decimal n ++ rest)) = some (host, decimal n ++ rest) :=
    Cut.cut_free hhost
  have hcolon : (58 : Byte) ∉ decimal n := decimal_free (by decide) n
  unfold tokens
  rw [hcut]
  dsimp only
  cases hport : Cut.cut [58] (decimal n ++ rest) with
  | none =>
    have hne : decimal n ++ rest ≠ [] := List.append_ne_nil_of_left_ne_nil (decimal_ne_nil n) rest
    exact ⟨rest, by dsimp only; rw [if_neg hne], List.prefix_rfl⟩
  | some parts =>
    obtain ⟨port, behind⟩ := parts
    have heq := Cut.cut_eq hport
    rw [List.append_assoc] at heq
    obtain ⟨tail, rfl, hrest⟩ | ⟨tail, hdecimal, hbehind⟩ := List.append_eq_append_iff.mp heq
    · exact ⟨tail, rfl, _, hrest.symm⟩
    · -- the colon is not among the digits
      cases tail with
      | nil => exact ⟨[], by rw [List.append_nil, hdecimal, List.append_nil], List.nil_prefix⟩
      | cons c tail =>
        have hc : (58 : Byte) = c := (List.cons.inj hbehind).1
        refine absurd ?_ hcolon
        rw [hdecimal, hc]
        exact List.mem_append_right _ List.mem_cons_self

/-- **What is read of a host and a number behind it**: a host that is no address leaves the old one, the number
wraps around, and what stands behind it is not looked at. -/
theorem toip_reads (a : SockaddrIn) {host rest : Bytes} (hhost : 58 ∉ host) {n : ℕ} (hn : n < 2147483648)
    (hrest : ∀ c ∈ rest.head?, isDigit c = false) :
    toip a (host ++ bytes ":" ++ (decimal n ++ rest)) =
      .ok ⟨afInet, htons (.ofNat n), (inetPton (cString host)).getD a.sin_addr⟩ := by
  obtain ⟨tail, htokens, hprefix⟩ := tokens_port hhost n rest
  have htail : ∀ c ∈ tail.head?, isDigit c = false := by
    obtain ⟨more, rfl⟩ := hprefix
    cases tail with
    | nil => simp
    | cons d tail => exact hrest
  have hport : UInt16.ofInt (n : ℤ) = .ofNat n := by
    have hmod : ((n : ℤ) % 2 ^ 16).toNat = n % 2 ^ 16 := by omega
    unfold UInt16.ofInt
    rw [hmod]
    apply UInt16.toNat_inj.mp
    rw [UInt16.toNat_ofNat', UInt16.toNat_ofNat', Nat.mod_mod]
  unfold toip
  rw [htokens]
  dsimp only
  rw [stoi_decimal hn htail]
  show Except.ok _ = Except.ok _
  rw [hport]

/-- The text of an address has no colon and no NUL. -/
theorem inetNtop_free {c : Byte} (hc : isDigit c = false) (hdot : c ≠ 46) (a : InAddr) : c ∉ inetNtop a := by
  have hfree := decimal_free hc
  unfold inetNtop
  simp [List.intercalate, List.intersperse, hfree, hdot]

/-- **An address is read back as it was written**, whatever the object held, and no other has its text. -/
theorem ipAdress_round_trip (a b : SockaddrIn) : toip b (fromip a) = .ok { a with sin_family := afInet } ∧
    (fromip a = fromip b ↔ a.sin_port = b.sin_port ∧ a.sin_addr = b.sin_addr) := by
  have hread : ∀ a b, toip b (fromip a) = .ok { a with sin_family := afInet } := by
    intro a b
    have hlt := (ntohs a.sin_port).toNat_lt
    have hhost : cString (inetNtop a.sin_addr) = inetNtop a.sin_addr := by
      refine List.takeWhile_eq_self_iff.mpr fun c hc => ?_
      rw [decide_eq_true_eq]
      rintro rfl
      exact inetNtop_free (by decide) (by decide) _ hc
    have hcolon : (58 : Byte) ∉ inetNtop a.sin_addr := inetNtop_free (by decide) (by decide) _
    have hend : ∀ c ∈ ([] : Bytes).head?, isDigit c = false := by simp
    have htoip := toip_reads b hcolon (show (ntohs a.sin_port).toNat < 2147483648 by omega) hend
    rw [List.append_nil] at htoip
    rw [fromip, htoip, hhost, inetPton_inetNtop, UInt16.ofNat_toNat]
    show Except.ok (SockaddrIn.mk afInet (ntohs (htons a.sin_port)) a.sin_addr) = _
    rw [ntohs_htons]
  refine ⟨hread a b, fun he => ?_, fun ⟨hport, haddr⟩ => ?_⟩
  · have hsame := (hread a a).symm.trans ((congrArg (toip a) he).trans (hread b a))
    rw [Except.ok.injEq, SockaddrIn.mk.injEq] at hsame
    exact hsame.2
  · unfold fromip
    rw [hport, haddr]

example : fromip (ofPort 8888) = bytes "0.0.0.0:8888" := by decide +kernel

end IpAdress

end MuduoSe
