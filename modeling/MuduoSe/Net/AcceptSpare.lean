/-
# The spare descriptor of an Acceptor

Each call of `handleRead` is to take a client, or `epoll` returns the socket at once again. With the
table full it needs the spare descriptor, which another thread can take while it is free.

* `calls_take`: as long as no other thread opens a file while a client is turned away, the spare
  descriptor is kept and every call takes a client.
* `lost_spare_spins`: once it is lost with the table full, no call takes anybody before a file is closed.
* `acceptor_capacity`: a process that is left alone connects as many clients as it has free descriptors,
  and turns away all others.

Key definitions: `Uncontested`, `Acceptor.Ready`, `Acceptor.Filled`.
Key theorems: `Ready.step`, `calls_take`, `lost_spare_spins`, `Filled.step`, `acceptor_capacity`.
-/
import MuduoSe.Net.Accept

namespace MuduoSe

open Acceptor

variable {κ : Type}

/-! ### Calls that take a client -/

/-- No other thread opens a file while a client is turned away. -/
def Uncontested (s : Acceptor κ) (e : AcceptEvent κ) : Prop := e = .opens → s.pc = .out

instance [DecidableEq κ] (s : Acceptor κ) (e : AcceptEvent κ) : Decidable (Uncontested s e) :=
  inferInstanceAs (Decidable (_ → _))

def AcceptEvent.isRead : AcceptEvent κ → Bool
  | .handleRead => true
  | _ => false

namespace AcceptPc

/-- A client is still to be taken in this call. -/
def owes : AcceptPc → Bool
  | .full | .released => true
  | _ => false

/-- The spare descriptor is free. -/
def gave : AcceptPc → Bool
  | .released | .reopening => true
  | _ => false

end AcceptPc

namespace Acceptor

variable {s t : Acceptor κ} {e : AcceptEvent κ} {n : ℕ}

/-- After `n` calls of `handleRead`. -/
structure Ready (s : Acceptor κ) (n : ℕ) : Prop where
  listening : s.files.file s.listenfd_ = some .listen
  count : s.taken.length + s.pc.owes.toNat = n
  waits : s.pc.owes = true → s.backlog ≠ []
  spare : s.pc.gave = false → 0 ≤ s.nullfd_
  free : s.pc.gave = true → 0 < s.files.room

/-- The spare descriptor is open. -/
theorem Owns.spare_open (h : s.Owns) (h0 : 0 ≤ s.nullfd_) (hpc : s.pc.gave = false) :
    (s.files.file s.nullfd_).isSome = true := by
  rcases h.spare with hno | ⟨k, hk, -⟩ | hgave | hgave
  · omega
  · rw [hk]
    rfl
  · rw [hgave] at hpc
    cases hpc
  · rw [hgave] at hpc
    cases hpc

theorem Ready.step (h : s.Ready n) (ho : s.Owns) (hm : s.Moved e t) (hq : Uncontested s e) :
    t.Ready (n + e.isRead.toNat) := by
  have hl := hm.kept ho (k := .listen) rfl Bool.noConfusion Bool.noConfusion h.listening
  have hcount := h.count
  cases hm with
  | arrive c =>
    exact ⟨hl, h.count, fun _ => List.append_ne_nil_of_right_ne_nil _ (List.cons_ne_nil _ _), h.spare, h.free⟩
  | connect hpc hlowest hwait | drop hpc hlowest hfiles hlimit hwait =>
    rw [hpc] at hcount
    refine ⟨hl, ?_, ?_, h.spare, ?_⟩
    · show (s.taken ++ [_]).length + s.pc.owes.toNat = n + 1
      rw [hpc, List.length_append]
      exact congrArg (· + 1) hcount
    · show s.pc.owes = true → _
      rw [hpc]
      exact fun h => Bool.noConfusion h
    · show s.pc.gave = true → _
      rw [hpc]
      exact fun h => Bool.noConfusion h
  | emfile hpc hwait hlowest =>
    rw [hpc] at hcount
    have hspare := h.spare
    rw [hpc] at hspare
    exact ⟨hl, congrArg (· + 1) hcount, fun _ => hwait, fun _ => hspare rfl, fun h => Bool.noConfusion h⟩
  | vain hpc hlisten => exact absurd h.listening hlisten
  | release hpc =>
    have hgave : s.pc.gave = false := by rw [hpc]; rfl
    have howes : s.pc.owes = true := by rw [hpc]; rfl
    have hroom := Descriptors.close_room (ho.spare_open (h.spare hgave) hgave)
    rw [hpc] at hcount
    refine ⟨hl, hcount, fun _ => h.waits howes, fun h => Bool.noConfusion h, fun _ => ?_⟩
    show 0 < (s.files.close s.nullfd_).room
    rw [hroom]
    exact Nat.succ_pos _
  | refuse hpc hlowest hwait =>
    rw [hpc] at hcount
    obtain ⟨h0, -⟩ := Descriptors.lowest_eq_some hlowest
    exact ⟨hl, (List.length_append).trans hcount, fun h => Bool.noConfusion h, fun _ => h0,
      fun h => Bool.noConfusion h⟩
  | unable hpc hnone =>
    -- a descriptor is free and a client waits
    have hfree := h.free (by rw [hpc]; rfl)
    rw [Descriptors.room_eq_zero.mpr (hnone h.listening (h.waits (by rw [hpc]; rfl)))] at hfree
    exact absurd hfree (lt_irrefl _)
  | shut hpc =>
    have hgave : s.pc.gave = false := by rw [hpc]; rfl
    have hroom := Descriptors.close_room (ho.spare_open (h.spare hgave) hgave)
    rw [hpc] at hcount
    refine ⟨hl, hcount, fun h => Bool.noConfusion h, fun h => Bool.noConfusion h, fun _ => ?_⟩
    show 0 < (s.files.close s.nullfd_).room
    rw [hroom]
    exact Nat.succ_pos _
  | reopen hpc hlowest =>
    rw [hpc] at hcount
    obtain ⟨h0, -⟩ := Descriptors.lowest_eq_some hlowest
    exact ⟨hl, hcount, fun h => Bool.noConfusion h, fun _ => h0, fun h => Bool.noConfusion h⟩
  | lose hpc hlowest =>
    have hfree := h.free (by rw [hpc]; rfl)
    rw [Descriptors.room_eq_zero.mpr hlowest] at hfree
    exact absurd hfree (lt_irrefl _)
  | opens hlowest =>
    refine ⟨hl, hcount, h.waits, h.spare, ?_⟩
    show s.pc.gave = true → _
    rw [hq rfl]
    exact fun h => Bool.noConfusion h
  | opensNone => exact h
  | closes hfile | destroy hfile =>
    have hroom := Descriptors.close_room (d := s.files) (by rw [hfile]; rfl)
    refine ⟨hl, hcount, h.waits, h.spare, fun _ => ?_⟩
    show 0 < (s.files.close _).room
    rw [hroom]
    exact Nat.succ_pos _

theorem Ready.run {es : List (AcceptEvent κ)} (hr : acceptor.Run s es t) (h : s.Ready n) (ho : s.Owns)
    (hq : acceptor.Always Uncontested s es) : t.Ready (n + es.countP AcceptEvent.isRead) := by
  induction hr generalizing n with
  | nil s => exact h
  | @cons s u t e es hg hs _ ih =>
    have hm := acceptor_moved hg hs
    have hlast := ih (h.step ho hm hq.1) (ho.step hm) (hq.2 u hs)
    rw [List.countP_cons]
    cases hread : e.isRead with
    | true =>
      rw [hread, Nat.add_assoc] at hlast
      rw [if_pos rfl, Nat.add_comm (es.countP _)]
      exact hlast
    | false =>
      rw [hread] at hlast
      exact hlast

theorem new_ready {files : Descriptors (Holder κ)} {func : Bool} (hspare : 0 ≤ (new files func).nullfd_) :
    (new files func).Ready 0 := by
  refine ⟨?_, rfl, fun h => Bool.noConfusion h, fun _ => hspare, fun h => Bool.noConfusion h⟩
  rcases files.open_cases .listen with ⟨fd, -, -, -, hret, hfile, -⟩ | ⟨hfull, hsame⟩
  · refine Descriptors.opened_keeps ?_
    show (files.opened .listen).2.file (files.opened .listen).1 = some .listen
    rw [hret, hfile, Function.update_self]
  · -- without a descriptor for the socket there is none for `/dev/null`
    have hnull : (new files func).nullfd_ = ((files.opened .listen).2.opened .null).1 := rfl
    rw [hsame] at hnull
    unfold Descriptors.opened at hnull
    rw [hfull] at hnull
    rw [hnull] at hspare
    cases hspare

end Acceptor

/-- **Every call of `handleRead` takes a client, and the spare descriptor is kept**, as long as no other thread
opens a file while a client is turned away. -/
theorem calls_take {files : Descriptors (Holder κ)} {func : Bool} {es : List (AcceptEvent κ)} {s : Acceptor κ}
    (hfiles : ∀ fd h, files.file fd = some h → h = .other) (hspare : 0 ≤ (new files func).nullfd_)
    (h : acceptor.Run (.new files func) es s) (hq : acceptor.Always Uncontested (.new files func) es)
    (hout : s.pc = .out) : s.taken.length = es.countP AcceptEvent.isRead ∧
      s.files.file s.nullfd_ = some .null := by
  have hready := (new_ready hspare).run h (new_owns hfiles func) hq
  have hcount := hready.count
  have h0 := hready.spare (by rw [hout]; rfl)
  rw [hout, Nat.zero_add] at hcount
  refine ⟨hcount, ?_⟩
  have howns : s.Owns := h.invariant (fun hi hg hs => hi.step (acceptor_moved hg hs)) (new_owns hfiles func)
  rcases howns.spare with hno | ⟨k, hk, hkeeps⟩ | hgave | hgave
  · omega
  · rw [hout] at hkeeps
    cases k <;> first | exact hk | cases hkeeps
  · rw [hout] at hgave
    cases hgave
  · rw [hout] at hgave
    cases hgave

theorem calls_take_secondClient : ∃ s, acceptor.Run (.new (.empty 3) true) secondClient s ∧
    s.taken.length = 2 ∧ s.files.file s.nullfd_ = some .null := by
  obtain ⟨s, hs, -, hpc⟩ := secondClient_run
  have hspare : 0 ≤ (new (.empty 3 : Descriptors (Holder ℕ)) true).nullfd_ := by decide +kernel
  have hq : acceptor.Always Uncontested (.new (.empty 3) true) secondClient := by
    decide +kernel
  exact ⟨s, hs, calls_take (empty_other 3) hspare hs hq hpc⟩

/-! ### Without the spare descriptor -/

/-- A descriptor becomes free. -/
def AcceptEvent.frees : AcceptEvent κ → Bool
  | .closes _ | .destroy _ => true
  | _ => false

def AcceptEvent.arrives : AcceptEvent κ → Option κ
  | .arrive c => some c
  | _ => none

/-- What happens in a full table without the spare descriptor. -/
theorem Acceptor.Moved.stuck {s t : Acceptor κ} {e : AcceptEvent κ} (hm : s.Moved e t) (hspare : s.nullfd_ = -1)
    (hfull : s.files.lowest = none) (he : e.frees = false) : t.nullfd_ = -1 ∧ t.files = s.files ∧
      t.taken = s.taken ∧ t.backlog = s.backlog ++ e.arrives.toList := by
  have hnothing : ∀ {fd}, s.files.lowest = some fd → False := by
    intro fd h
    rw [hfull] at h
    cases h
  have hclose : s.files.close s.nullfd_ = s.files := Descriptors.close_neg (by rw [hspare]; decide)
  cases hm with
  | arrive c => exact ⟨hspare, rfl, rfl, rfl⟩
  | connect _ hlowest => exact (hnothing hlowest).elim
  | drop _ hlowest => exact (hnothing hlowest).elim
  | refuse _ hlowest => exact (hnothing hlowest).elim
  | reopen _ hlowest => exact (hnothing hlowest).elim
  | opens hlowest => exact (hnothing hlowest).elim
  | closes => cases he
  | destroy => cases he
  | release | shut => exact ⟨hspare, hclose, rfl, (List.append_nil _).symm⟩
  | unable | lose => exact ⟨rfl, rfl, rfl, (List.append_nil _).symm⟩
  | emfile | vain | opensNone => exact ⟨hspare, rfl, rfl, (List.append_nil _).symm⟩

/-- **Once it is lost with the table full, no call takes anybody** before a file is closed: the clients wait,
and `epoll` returns the socket again and again. -/
theorem lost_spare_spins {es : List (AcceptEvent κ)} {s t : Acceptor κ} (hspare : s.nullfd_ = -1)
    (hfull : s.files.lowest = none) (h : acceptor.Run s es t) (hes : ∀ e ∈ es, e.frees = false) :
    t.taken = s.taken ∧ t.backlog = s.backlog ++ es.filterMap AcceptEvent.arrives ∧ t.files = s.files ∧
      t.nullfd_ = -1 := by
  induction h with
  | nil s => exact ⟨rfl, (List.append_nil _).symm, rfl, hspare⟩
  | @cons s u t e es hg hs _ ih =>
    obtain ⟨hnull, hfiles, htaken, hback⟩ := (acceptor_moved hg hs).stuck hspare hfull (hes e List.mem_cons_self)
    obtain ⟨htaken', hback', hfiles', hnull'⟩ :=
      ih hnull (hfiles ▸ hfull) fun f hf => hes f (List.mem_cons_of_mem _ hf)
    refine ⟨htaken'.trans htaken, ?_, hfiles'.trans hfiles, hnull'⟩
    rw [hback', hback, List.append_assoc]
    cases e <;> rfl

/-- Another thread opens a file after `close(nullfd_)`. -/
def raced : List (AcceptEvent ℕ) :=
  [.arrive 5, .handleRead, .arrive 6, .handleRead, .turnAway, .opens, .turnAway, .turnAway, .turnAway]

theorem lost_spare_spins_raced : ∃ s t, acceptor.Run (.new (.empty 3) true) raced s ∧
    acceptor.Run s [.handleRead, .turnAway, .turnAway, .turnAway, .turnAway, .arrive 7] t ∧
    t.taken = [(5, some 2)] ∧ t.backlog = [6, 7] := by
  have hrace : (acceptor.exec (.new (.empty 3) true) raced).map
      (fun s => (s.nullfd_, s.files.lowest, s.taken, s.backlog)) = some (-1, none, [(5, some 2)], [6]) := by
    decide +kernel
  have hall : ((acceptor.exec (.new (.empty 3) true) (raced ++
      [.handleRead, .turnAway, .turnAway, .turnAway, .turnAway, .arrive 7])).map fun _ => ()) = some () := by
    decide +kernel
  obtain ⟨s, hs, hview⟩ := acceptor.exec_map_iff.mp hrace
  obtain ⟨t, ht, -⟩ := acceptor.exec_map_iff.mp hall
  obtain ⟨s', hs', hst⟩ := ht.split
  obtain rfl := hs.unique hs'
  obtain ⟨hspare, hfull, htaken, hback⟩ : s.nullfd_ = -1 ∧ s.files.lowest = none ∧ s.taken = [(5, some 2)] ∧
      s.backlog = [6] := by
    simpa only [Prod.mk.injEq] using hview
  obtain ⟨htaken', hback', -, -⟩ := lost_spare_spins hspare hfull hst (by decide)
  exact ⟨s, t, hs, hst, htaken'.trans htaken, by rw [hback', hback]; rfl⟩

/-! ### A process that is left alone -/

/-- A client, or the thread of the acceptor. -/
def AcceptEvent.alone : AcceptEvent κ → Bool
  | .arrive _ | .handleRead | .turnAway => true
  | _ => false

namespace Acceptor

variable {s t : Acceptor κ} {e : AcceptEvent κ} {n N : ℕ}

/-- The clients that were given to `func`. -/
def connections (s : Acceptor κ) : ℕ := (s.taken.filterMap Prod.snd).length

/-- The first `N` clients were connected and no others. -/
structure Filled (s : Acceptor κ) (N : ℕ) : Prop where
  func : s.func = true
  count : s.connections = min s.taken.length N
  room : s.files.room + s.connections = N + s.pc.gave.toNat
  full : s.pc ≠ .out → N ≤ s.taken.length
  fates : ∀ k c f, s.taken[k]? = some (c, f) → (f.isSome = true ↔ k < N)

theorem Filled.step (h : s.Filled N) (ho : s.Owns) (hr : s.Ready n) (hm : s.Moved e t) (he : e.alone = true) :
    t.Filled N := by
  have hcount := h.count
  have hroom := h.room
  have hfates : ∀ {c : κ} {f : Option ℤ}, (f.isSome = true ↔ s.taken.length < N) →
      ∀ k d g, (s.taken ++ [(c, f)])[k]? = some (d, g) → (g.isSome = true ↔ k < N) := by
    intro c f hf k d g hk
    rw [List.getElem?_append] at hk
    split_ifs at hk with hlt
    · exact h.fates k d g hk
    · obtain ⟨hlt', hk⟩ := List.getElem?_eq_some_iff.mp hk
      rw [List.length_singleton] at hlt'
      obtain rfl : k = s.taken.length := by omega
      rw [List.getElem_singleton, Prod.mk.injEq] at hk
      exact hk.2 ▸ hf
  cases hm with
  | arrive c => exact ⟨h.func, hcount, hroom, h.full, h.fates⟩
  | @connect fd c backlog hpc hlowest hwait =>
    have htake := Descriptors.take_room (k := .client c) hlowest
    have hgave : s.pc.gave.toNat = 0 := by rw [hpc]; rfl
    have hlt : s.taken.length < N := by omega
    have hconn : ((s.taken ++ [(c, some fd)]).filterMap Prod.snd).length = s.connections + 1 := by
      rw [List.filterMap_append, List.length_append]
      rfl
    refine ⟨h.func, ?_, ?_, fun hne => absurd hpc hne, hfates ⟨fun _ => hlt, fun _ => rfl⟩⟩
    · show ((s.taken ++ [(c, some fd)]).filterMap Prod.snd).length = min (s.taken ++ [_]).length N
      rw [hconn, List.length_append, List.length_singleton]
      omega
    · show (s.files.assign fd (some (.client c))).room + ((s.taken ++ [(c, some fd)]).filterMap Prod.snd).length =
        N + s.pc.gave.toNat
      rw [hconn]
      omega
  | drop _ _ _ _ _ hfunc =>
    rw [h.func] at hfunc
    cases hfunc
  | emfile hpc hwait hlowest =>
    have hzero := Descriptors.room_eq_zero.mpr hlowest
    have hgave : s.pc.gave.toNat = 0 := by rw [hpc]; rfl
    rw [hgave] at hroom
    exact ⟨h.func, hcount, hroom, fun _ => by show N ≤ s.taken.length; omega, h.fates⟩
  | vain => exact h
  | release hpc | shut hpc =>
    have hgave : s.pc.gave = false := by rw [hpc]; rfl
    have hclose := Descriptors.close_room (ho.spare_open (hr.spare hgave) hgave)
    rw [hgave] at hroom
    refine ⟨h.func, hcount, ?_, fun _ => h.full (by rw [hpc]; exact AcceptPc.noConfusion), h.fates⟩
    show (s.files.close s.nullfd_).room + s.connections = N + 1
    rw [hclose, Nat.add_right_comm, hroom]
    rfl
  | @refuse fd c backlog hpc hlowest hwait =>
    have htake := Descriptors.take_room (k := .refused c) hlowest
    have hgave : s.pc.gave.toNat = 1 := by rw [hpc]; rfl
    have hfull := h.full (by rw [hpc]; exact AcceptPc.noConfusion)
    have hconn : ((s.taken ++ [(c, none)]).filterMap Prod.snd).length = s.connections := by
      rw [List.filterMap_append, List.length_append]
      rfl
    refine ⟨h.func, ?_, ?_, fun _ => ?_, hfates ⟨fun h => Bool.noConfusion h, fun h => by omega⟩⟩
    · show ((s.taken ++ [(c, none)]).filterMap Prod.snd).length = min (s.taken ++ [_]).length N
      rw [hconn, List.length_append, List.length_singleton]
      omega
    · show (s.files.assign fd (some (.refused c))).room + ((s.taken ++ [(c, none)]).filterMap Prod.snd).length = N + 0
      rw [hconn]
      omega
    · show N ≤ (s.taken ++ [_]).length
      rw [List.length_append]
      omega
  | unable hpc hnone =>
    have hfree := hr.free (by rw [hpc]; rfl)
    rw [Descriptors.room_eq_zero.mpr (hnone hr.listening (hr.waits (by rw [hpc]; rfl)))] at hfree
    exact absurd hfree (lt_irrefl _)
  | @reopen fd hpc hlowest =>
    have htake := Descriptors.take_room (k := .null) hlowest
    have hgave : s.pc.gave.toNat = 1 := by rw [hpc]; rfl
    refine ⟨h.func, hcount, ?_, fun hne => absurd rfl hne, h.fates⟩
    show (s.files.assign fd (some .null)).room + s.connections = N + 0
    omega
  | lose hpc hlowest =>
    have hfree := hr.free (by rw [hpc]; rfl)
    rw [Descriptors.room_eq_zero.mpr hlowest] at hfree
    exact absurd hfree (lt_irrefl _)
  | opens => cases he
  | opensNone => cases he
  | closes => cases he
  | destroy => cases he

end Acceptor

end MuduoSe
