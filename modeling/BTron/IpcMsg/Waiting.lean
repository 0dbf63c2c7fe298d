import BTron.IpcMsg.Fifo
import BTron.Lib.Monitor

namespace BTron.IpcMsg

open Lib

-- A `rcv_msg` with tmo ≠ 0; `timed` says tmo > 0.
structure Receiver where
  mask : Nat
  timed : Bool

-- The calls on a mailbox that do not wait.
inductive MailCall
  | snd (msg : Message)
  | poll (mask : Nat)

-- One mailbox with its lock and its condition variable. Only a message that is queued is
-- signalled.
def monitor : Monitor Mailbox Receiver MailCall where
  attempt mb w := (mb.take w.mask).map Prod.snd
  call mb
    | .snd msg =>
      if msg.msgType < 1 ∨ msg.msgType > 31 then (mb, false)
      else ((mb.put msg).1, (mb.put msg).2 == E_OK)
    | .poll mask =>
      match mb.take mask with
      | some (_, mb') => (mb', false)
      | none => (mb, false)
  timed w := w.timed = true

-- How many queued messages a receiver could take.
def matching (mb : Mailbox) (w : Receiver) : Nat := mb.contents.countP (wanted w.mask)

structure Sound (mb : Mailbox) : Prop where
  wellFormed : mb.WellFormed
  types : ∀ msg ∈ mb.contents, 1 ≤ msg.msgType ∧ msg.msgType ≤ 31

theorem sound_zero : Sound .zero :=
  ⟨wellFormed_zero, by simp [Mailbox.contents, Mailbox.zero, ringList]⟩

theorem take_eq_none_iff {mb : Mailbox} (hmb : mb.WellFormed) {mask : Nat} :
    mb.take mask = none ↔ ∀ msg ∈ mb.contents, ¬wanted mask msg := by
  refine ⟨take_eq_none, fun h => ?_⟩
  cases htake : mb.take mask with
  | none => rfl
  | some r =>
      obtain ⟨msg, mb'⟩ := r
      obtain ⟨-, i, hi, rfl, hwant, -, -⟩ := take_eq_some hmb htake
      exact absurd hwant (h _ (List.getElem_mem hi))

theorem sound_take {mb mb' : Mailbox} {mask : Nat} {msg : Message} (h : Sound mb)
    (htake : mb.take mask = some (msg, mb')) : Sound mb' := by
  obtain ⟨hmb', i, hi, -, -, -, hcontents⟩ := take_eq_some h.wellFormed htake
  refine ⟨hmb', fun m hm => h.types m ?_⟩
  rw [hcontents] at hm
  exact List.mem_of_mem_eraseIdx hm

theorem matching_take_le {mb mb' : Mailbox} {mask : Nat} {msg : Message} (h : Sound mb)
    (htake : mb.take mask = some (msg, mb')) (w : Receiver) : matching mb' w ≤ matching mb w := by
  obtain ⟨-, i, hi, -, -, -, hcontents⟩ := take_eq_some h.wellFormed htake
  rw [matching, hcontents]
  exact (List.eraseIdx_sublist _ _).countP_le

theorem matching_take_lt {mb mb' : Mailbox} {w : Receiver} {msg : Message} (h : Sound mb)
    (htake : mb.take w.mask = some (msg, mb')) : matching mb' w < matching mb w := by
  obtain ⟨-, i, hi, rfl, hwant, -, hcontents⟩ := take_eq_some h.wellFormed htake
  have hsplit := List.getElem_cons_eraseIdx_perm hi
  have hcount := hsplit.countP_eq (wanted w.mask)
  rw [List.countP_cons_of_pos hwant] at hcount
  rw [matching, matching, hcontents]
  omega

theorem put_sound {mb : Mailbox} (h : Sound mb) {msg : Message}
    (htype : 1 ≤ msg.msgType ∧ msg.msgType ≤ 31) :
    Sound (mb.put msg).1 ∧ (∀ w, matching (mb.put msg).1 w ≤ matching mb w + 1) ∧
      ((mb.put msg).2 ≠ E_OK → (mb.put msg).1 = mb) := by
  by_cases hfull : mb.count = maxQueuedMsgs
  · rw [put_full hfull]
    exact ⟨h, fun w => Nat.le_succ _, fun _ => rfl⟩
  · obtain ⟨hok, hmb, hcontents⟩ := put_room h.wellFormed hfull msg
    refine ⟨⟨hmb, fun m hm => ?_⟩, fun w => ?_, fun hne => absurd hok hne⟩
    · rw [hcontents, List.mem_append, List.mem_singleton] at hm
      obtain hm | rfl := hm
      · exact h.types m hm
      · exact htype
    · rw [matching, hcontents, List.countP_append]
      exact Nat.add_le_add_left (List.countP_le_length) _

theorem units : monitor.Units Sound matching where
  attempt_keeps hI hd := by
    obtain ⟨r, hr, rfl⟩ := Option.map_eq_some_iff.mp hd
    exact sound_take hI hr
  none hI hd := by
    rw [monitor, Option.map_eq_none_iff] at hd
    rw [matching, List.countP_eq_zero]
    exact take_eq_none hd
  take hI hd := by
    obtain ⟨r, hr, rfl⟩ := Option.map_eq_some_iff.mp hd
    exact matching_take_lt hI hr
  take_le hI hd := by
    obtain ⟨r, hr, rfl⟩ := Option.map_eq_some_iff.mp hd
    exact matching_take_le hI hr
  call_keeps {mb mb' a b} hI hd := by
    cases a with
    | snd msg =>
        simp only [monitor] at hd
        split_ifs at hd with htype
        · obtain ⟨rfl, -⟩ := Prod.mk.inj hd
          exact hI
        · obtain ⟨rfl, -⟩ := Prod.mk.inj hd
          exact (put_sound hI (by omega)).1
    | poll mask =>
        simp only [monitor] at hd
        split at hd
        · rename_i htake
          obtain ⟨rfl, -⟩ := Prod.mk.inj hd
          exact sound_take hI htake
        · obtain ⟨rfl, -⟩ := Prod.mk.inj hd
          exact hI
  signal {mb mb' a} hI hd w := by
    cases a with
    | snd msg =>
        simp only [monitor] at hd
        split_ifs at hd with htype
        · simp at hd
        · obtain ⟨rfl, -⟩ := Prod.mk.inj hd
          exact (put_sound hI (by omega)).2.1 w
    | poll mask =>
        simp only [monitor] at hd
        split at hd <;> simp at hd
  quiet {mb mb' a} hI hd w := by
    cases a with
    | snd msg =>
        simp only [monitor] at hd
        split_ifs at hd with htype
        · obtain ⟨rfl, -⟩ := Prod.mk.inj hd
          exact Nat.le_refl _
        · obtain ⟨rfl, hne⟩ := Prod.mk.inj hd
          rw [(put_sound hI (by omega)).2.2 (by simpa using hne)]
    | poll mask =>
        simp only [monitor] at hd
        split at hd
        · rename_i htake
          obtain ⟨rfl, -⟩ := Prod.mk.inj hd
          exact matching_take_le hI htake w
        · obtain ⟨rfl, -⟩ := Prod.mk.inj hd
          exact Nat.le_refl _

-- The receivers on a mailbox wait with masks that satisfy `P`.
def Reaches (P : Nat → Prop) (c : Monitor.Conf Mailbox Receiver) : Prop :=
  monitor.Reachable (fun w => P w.mask) .zero c

-- A receiver sleeps beside a message it could take, and no wake-up is on its way.
def Stranded (c : Monitor.Conf Mailbox Receiver) : Prop := Monitor.Stranded matching c

-- The signal for a message that only the second of two sleeping receivers wants can wake the
-- first, which goes back to sleep.
theorem exists_stranded {P : Nat → Prop} {m m' : Nat} (hm : P m) (hm' : P m') {msg : Message}
    (htype : 1 ≤ msg.msgType ∧ msg.msgType ≤ 31) (hwant : wanted m msg)
    (hno : ¬wanted m' msg) : ∃ c, Reaches P c ∧ Stranded c := by
  obtain ⟨hok, hmb, hcontents⟩ := put_room wellFormed_zero (by decide) msg
  have hqueue : (Mailbox.zero.put msg).1.contents = [msg] := hcontents
  have hcall : monitor.call .zero (.snd msg) = ((Mailbox.zero.put msg).1, true) := by
    simp only [monitor]
    rw [if_neg (by omega), hok]
    rfl
  have hagain : monitor.attempt (Mailbox.zero.put msg).1 ⟨m', false⟩ = none := by
    have htake := (@take_eq_none_iff _ hmb m').mpr (by simpa [hqueue] using hno)
    simp only [monitor, htake, Option.map_none]
  have hfirst : Reaches P ⟨.zero, ⟨m, false⟩ ::ₘ 0, 0⟩ := by
    apply (monitor.reachable_start _ _).next _ (.block rfl)
    rintro w hw
    cases hw
    exact hm
  have hboth : Reaches P ⟨.zero, ⟨m', false⟩ ::ₘ ⟨m, false⟩ ::ₘ 0, 0⟩ := by
    apply hfirst.next _ (.block rfl)
    rintro w hw
    cases hw
    exact hm'
  have hsent := hboth.next (by simp) (.wake hcall)
  have hback := hsent.next (by simp) (.reblock hagain)
  refine ⟨_, hback, rfl, ⟨m, false⟩, by simp, ?_⟩
  simp [matching, hqueue, hwant]

theorem unstranded_iff (P : Nat → Prop) :
    (∀ c, Reaches P c → ¬Stranded c) ↔
      ∀ m m', P m → P m' → ∀ msg : Message, 1 ≤ msg.msgType ∧ msg.msgType ≤ 31 →
        (wanted m msg ↔ wanted m' msg) := by
  constructor
  · intro hsafe m m' hm hm' msg htype
    by_contra hdiff
    obtain ⟨hwant, hno⟩ | ⟨hwant, hno⟩ : wanted m msg ∧ ¬wanted m' msg ∨
        wanted m' msg ∧ ¬wanted m msg := by
      by_cases hwant : wanted m msg = true
      · exact .inl ⟨hwant, fun h => hdiff ⟨fun _ => h, fun _ => hwant⟩⟩
      · exact .inr ⟨by_contra fun h => hdiff ⟨fun h' => absurd h' hwant, fun h' => absurd h' h⟩,
          hwant⟩
    · obtain ⟨c, hc, hs⟩ := exists_stranded hm hm' htype hwant hno
      exact hsafe c hc hs
    · obtain ⟨c, hc, hs⟩ := exists_stranded hm' hm htype hwant hno
      exact hsafe c hc hs
  · intro halike c hc
    apply Monitor.Covered.not_stranded
    refine Monitor.covered_of_reachable units (fun v w hv hw mb hmb => ?_) sound_zero hc
    exact List.countP_congr fun msg hmsg => halike v.mask w.mask hv hw msg (hmb.types msg hmsg)

-- Two receivers for the types 1 and 2, and a message of type 1.
theorem two_masks_stranded : ∃ c, Reaches (fun m => m = 1 ∨ m = 2) c ∧ Stranded c := by
  have hwant : wanted 1 { Message.zero with msgType := 1 } := by decide
  exact exists_stranded (.inl rfl) (.inr rfl) (by decide) hwant (by decide)

end BTron.IpcMsg
