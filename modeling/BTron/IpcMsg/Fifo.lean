import BTron.IpcMsg
import BTron.Lib.Fifo
import Mathlib.Data.List.InsertIdx

namespace BTron.IpcMsg

open Lib

-- The messages queued in a mailbox, the oldest first.
def Mailbox.contents (mb : Mailbox) : List Message :=
  ringList maxQueuedMsgs mb.messages mb.head mb.count

structure Mailbox.WellFormed (mb : Mailbox) : Prop where
  count_le : mb.count ≤ maxQueuedMsgs
  tail_eq : mb.tail = (mb.head + mb.count) % maxQueuedMsgs

theorem wellFormed_zero : Mailbox.zero.WellFormed := ⟨by decide, rfl⟩

@[simp] theorem contents_length (mb : Mailbox) : mb.contents.length = mb.count := ringList_length

-- A type is in a mask when its bit is set, and every type is in the mask 0.
def wanted (mask : Nat) (msg : Message) : Bool :=
  mask = 0 ∨ mask.testBit (msg.msgType.toNat - 1)

theorem matchesMask_eq (mask : Nat) (msg : Message) : matchesMask mask msg = wanted mask msg := by
  have hshift : (msg.msgType - 1).toNat = msg.msgType.toNat - 1 := by omega
  have hbit : (mask &&& msgmask msg.msgType ≠ 0) ↔ mask.testBit (msg.msgType.toNat - 1) := by
    rw [msgmask, hshift, Nat.one_shiftLeft, Nat.and_two_pow]
    cases mask.testBit (msg.msgType.toNat - 1) <;> simp
  rw [Bool.eq_iff_iff]
  simp only [matchesMask, wanted, Bool.or_eq_true, beq_iff_eq, bne_iff_ne, decide_eq_true_eq]
  rw [hbit]

theorem put_full {mb : Mailbox} (hfull : mb.count = maxQueuedMsgs) (msg : Message) :
    mb.put msg = (mb, ER_NOSPC) := by
  rw [Mailbox.put, if_pos (by omega)]

theorem put_room {mb : Mailbox} (hmb : mb.WellFormed) (hroom : mb.count ≠ maxQueuedMsgs)
    (msg : Message) :
    (mb.put msg).2 = E_OK ∧ (mb.put msg).1.WellFormed ∧
      (mb.put msg).1.contents = mb.contents ++ [msg] := by
  have hlt : mb.count < maxQueuedMsgs := Nat.lt_of_le_of_ne hmb.count_le hroom
  rw [Mailbox.put, if_neg (by omega)]
  refine ⟨rfl, ⟨hlt, ?_⟩, ?_⟩
  · rw [hmb.tail_eq, Nat.mod_add_mod, Nat.add_assoc]
  · rw [Mailbox.contents, hmb.tail_eq]
    exact ringList_push msg hlt

theorem take_eq_none {mb : Mailbox} {mask : Nat} (h : mb.take mask = none) :
    ∀ msg ∈ mb.contents, ¬wanted mask msg := by
  unfold Mailbox.take at h
  split at h
  · rename_i hfind
    rw [List.find?_range_eq_none] at hfind
    intro msg hmsg
    obtain ⟨i, hi, rfl⟩ := List.getElem_of_mem hmsg
    rw [contents_length] at hi
    have hi' := hfind i hi
    rw [matchesMask_eq] at hi'
    simpa [Mailbox.contents, getElem_ringList] using hi'
  · simp at h

-- The search takes out the oldest wanted message, and nothing else.
theorem take_eq_some {mb mb' : Mailbox} {mask : Nat} {msg : Message} (hmb : mb.WellFormed)
    (h : mb.take mask = some (msg, mb')) :
    mb'.WellFormed ∧ ∃ i, ∃ hi : i < mb.contents.length, msg = mb.contents[i] ∧ wanted mask msg ∧
      (∀ j, ∀ hj : j < i, ¬wanted mask mb.contents[j]) ∧
      mb'.contents = mb.contents.eraseIdx i := by
  unfold Mailbox.take at h
  split at h
  · simp at h
  · rename_i i hfind
    rw [Option.some.injEq, Prod.mk.injEq] at h
    obtain ⟨rfl, rfl⟩ := h
    obtain ⟨hi, hmem, hbefore⟩ := List.find?_range_eq_some.mp hfind
    rw [List.mem_range] at hmem
    rw [matchesMask_eq] at hi
    have hle := hmb.count_le
    refine ⟨⟨by simp only; omega, rfl⟩, i, by simpa using hmem, ?_, hi, ?_, ?_⟩
    · exact (getElem_ringList _).symm
    · intro j hj
      have hj' := hbefore j hj
      rw [matchesMask_eq] at hj'
      simpa [Mailbox.contents, getElem_ringList] using hj'
    · exact ringList_shift hmem hle

-- What the mailboxes are for: one queue for each pid.
abbrev Queues := Int → Fifo Message

namespace Spec

def snd (q : Queues) (pid : Int) (msg : Option Message) : Queues × ER :=
  match msg with
  | none => (q, E_PAR)
  | some msg =>
    if ¬(0 ≤ pid ∧ pid < maxIpcPids) then (q, ER_ID)
    else if ¬(1 ≤ msg.msgType ∧ msg.msgType ≤ 31) then (q, E_PAR)
    else if (q pid).pending.length = maxQueuedMsgs then (q, ER_NOSPC)
    else (Function.update q pid ((q pid).send msg), E_OK)

def rcv (q : Queues) (pid : Int) (out : Bool) (mask : Nat) : Queues × Result :=
  if !out then (q, E_PAR, none)
  else if ¬(0 ≤ pid ∧ pid < maxIpcPids) then (q, ER_ID, none)
  else
    match (q pid).receive (wanted mask) with
    | some (msg, q') => (Function.update q pid q', E_OK, some msg)
    | none => (q, E_TMOUT, none)

def exec (q : Queues) : Call → Queues × Result
  | .snd pid msg =>
    let (q, er) := snd q pid msg
    (q, er, none)
  | .rcv pid out mask | .chk pid out mask => rcv q pid out mask

def run (q : Queues) : List Call → Queues × List Result
  | [] => (q, [])
  | c :: cs =>
    let (q', r) := exec q c
    let (q'', rs) := run q' cs
    (q'', r :: rs)

end Spec

-- A mailbox holds what its queue has pending.
structure Holds (mb : Mailbox) (q : Fifo Message) : Prop where
  wellFormed : mb.WellFormed
  valid : q.Valid
  contents_eq : mb.contents = q.pending.map Prod.fst

-- The mailboxes hold the queues, and are still zero before they are initialized.
structure Refines (s : Ipc) (q : Queues) : Prop where
  fresh : s.initialized = false → ∀ pid, s.mailboxes pid = .zero
  holds : ∀ pid, Holds (s.mailboxes pid) (q pid)

theorem refines_start : Refines .start fun _ => .empty :=
  ⟨fun _ _ => rfl, fun _ => ⟨wellFormed_zero, Fifo.valid_empty, rfl⟩⟩

theorem Holds.length_eq {mb : Mailbox} {q : Fifo Message} (h : Holds mb q) :
    q.pending.length = mb.count := by
  rw [← contents_length, h.contents_eq, List.length_map]

theorem holds_put {mb : Mailbox} {q : Fifo Message} (h : Holds mb q)
    (hroom : mb.count ≠ maxQueuedMsgs) (msg : Message) : Holds (mb.put msg).1 (q.send msg) := by
  obtain ⟨-, hmb, hcontents⟩ := put_room h.wellFormed hroom msg
  refine ⟨hmb, Fifo.valid_send h.valid msg, ?_⟩
  rw [hcontents, h.contents_eq, Fifo.pending_send h.valid, List.map_append]
  rfl

-- Both levels look at the same messages in the same order, so they stop at the same one.
theorem holds_take {mb : Mailbox} {q : Fifo Message} (h : Holds mb q) (mask : Nat) :
    mb.take mask = none ∧ q.receive (wanted mask) = none ∨
      ∃ msg mb' q', mb.take mask = some (msg, mb') ∧ q.receive (wanted mask) = some (msg, q') ∧
        Holds mb' q' := by
  have hget : ∀ i (hi : i < q.pending.length) (hi' : i < mb.contents.length),
      mb.contents[i] = q.pending[i].1 := by
    intro i hi hi'
    rw [List.getElem_of_eq h.contents_eq hi', List.getElem_map]
  have hlen : q.pending.length = mb.contents.length := by rw [h.length_eq, contents_length]
  cases htake : mb.take mask with
  | none =>
      have hnone := take_eq_none htake
      refine .inl ⟨rfl, Fifo.receive_eq_none_iff.mpr fun e he => hnone e.1 ?_⟩
      rw [h.contents_eq]
      exact List.mem_map_of_mem he
  | some r =>
      obtain ⟨msg, mb'⟩ := r
      obtain ⟨hmb', i, hi, rfl, hwant, hbefore, hcontents⟩ := take_eq_some h.wellFormed htake
      have hi' : i < q.pending.length := by rw [hlen]; exact hi
      cases hreceive : q.receive (wanted mask) with
      | none =>
          have hnone := Fifo.receive_eq_none_iff.mp hreceive q.pending[i] (List.getElem_mem hi')
          rw [← hget i hi' hi] at hnone
          exact absurd hwant hnone
      | some r =>
          obtain ⟨msg, q'⟩ := r
          obtain ⟨hq', k, hk, rfl, hwant', hbefore', hpending⟩ :=
            Fifo.receive_eq_some h.valid hreceive
          have hk' : k < mb.contents.length := by rw [← hlen]; exact hk
          rw [← hget k hk hk'] at hwant'
          -- neither position is before the other
          have hik : i = k := by
            rcases Nat.lt_trichotomy i k with hlt | heq | hlt
            · have hno := hbefore' i hlt
              rw [← hget i hi' hi] at hno
              exact absurd hwant hno
            · exact heq
            · exact absurd hwant' (hbefore k hlt)
          subst hik
          refine .inr ⟨mb.contents[i], mb', q', rfl, ?_, hmb', hq', ?_⟩
          · rw [hget i hi' hi]
          · rw [hcontents, hpending, h.contents_eq, ← List.eraseIdx_map]

theorem mailboxes_ensureInit {s : Ipc} {q : Queues} (h : Refines s q) :
    (ipcEnsureInit s).mailboxes = s.mailboxes := by
  unfold ipcEnsureInit
  split
  · rfl
  · rename_i hinit
    funext pid
    simp only [Bool.not_eq_true] at hinit
    simp only [h.fresh hinit pid, ite_self]

theorem initialized_ensureInit (s : Ipc) : (ipcEnsureInit s).initialized = true := by
  unfold ipcEnsureInit
  split
  · assumption
  · rfl

theorem refines_ensureInit {s : Ipc} {q : Queues} (h : Refines s q) :
    Refines (ipcEnsureInit s) q := by
  refine ⟨fun hinit => ?_, fun pid => ?_⟩
  · rw [initialized_ensureInit] at hinit
    simp at hinit
  · rw [mailboxes_ensureInit h]
    exact h.holds pid

theorem refines_set {s : Ipc} {q : Queues} (h : Refines s q) (hinit : s.initialized = true)
    {pid : Int} {mb : Mailbox} {f : Fifo Message} (hmb : Holds mb f) :
    Refines (s.set pid mb) (Function.update q pid f) := by
  refine ⟨fun hinit' => ?_, fun i => ?_⟩
  · rw [Ipc.set, hinit] at hinit'
    simp at hinit'
  · by_cases hi : i = pid
    · subst hi
      simpa [Ipc.set] using hmb
    · simpa [Ipc.set, hi] using h.holds i

theorem refines_set_self {s : Ipc} {q : Queues} (h : Refines s q) (pid : Int) :
    Refines (s.set pid (s.mailboxes pid)) q := by
  refine ⟨fun hinit i => ?_, fun i => ?_⟩
  · simpa [Ipc.set] using h.fresh hinit i
  · simpa [Ipc.set] using h.holds i

theorem snd_refines {s : Ipc} {q : Queues} (h : Refines s q) (pid : Int) (msg : Option Message) :
    (sndMsg s pid msg).2 = (Spec.snd q pid msg).2 ∧
      Refines (sndMsg s pid msg).1 (Spec.snd q pid msg).1 := by
  cases msg with
  | none => exact ⟨rfl, h⟩
  | some msg =>
      simp only [sndMsg, Spec.snd]
      by_cases hpid : 0 ≤ pid ∧ pid < maxIpcPids
      swap
      · rw [if_pos (by omega), if_pos hpid]
        exact ⟨rfl, h⟩
      rw [if_neg (by omega), if_neg (not_not_intro hpid)]
      by_cases htype : 1 ≤ msg.msgType ∧ msg.msgType ≤ 31
      swap
      · rw [if_pos (by omega), if_pos htype]
        exact ⟨rfl, h⟩
      rw [if_neg (by omega), if_neg (not_not_intro htype), (h.holds pid).length_eq]
      have h' := refines_ensureInit h
      rw [mailboxes_ensureInit h]
      by_cases hfull : (s.mailboxes pid).count = maxQueuedMsgs
      · rw [put_full hfull, if_pos hfull]
        refine ⟨rfl, ?_⟩
        rw [← mailboxes_ensureInit h]
        exact refines_set_self h' pid
      · rw [if_neg hfull]
        exact ⟨(put_room (h.holds pid).wellFormed hfull msg).1,
          refines_set h' (initialized_ensureInit s) (holds_put (h.holds pid) hfull msg)⟩

theorem rcv_refines {s : Ipc} {q : Queues} (h : Refines s q) (pid : Int) (out : Bool)
    (mask : Nat) :
    (rcvMsg s pid out mask).2 = (Spec.rcv q pid out mask).2 ∧
      Refines (rcvMsg s pid out mask).1 (Spec.rcv q pid out mask).1 := by
  cases out with
  | false => exact ⟨rfl, h⟩
  | true =>
      simp only [rcvMsg, Spec.rcv, Bool.not_true, Bool.false_eq_true, if_false]
      by_cases hpid : 0 ≤ pid ∧ pid < maxIpcPids
      swap
      · rw [if_pos (by omega), if_pos hpid]
        exact ⟨rfl, h⟩
      rw [if_neg (by omega), if_neg (not_not_intro hpid), mailboxes_ensureInit h]
      have h' := refines_ensureInit h
      obtain ⟨htake, hreceive⟩ | ⟨msg, mb', q', htake, hreceive, hholds⟩ :=
        holds_take (h.holds pid) mask
      · rw [htake, hreceive]
        exact ⟨rfl, h'⟩
      · rw [htake, hreceive]
        exact ⟨rfl, refines_set h' (initialized_ensureInit s) hholds⟩

theorem exec_refines {s : Ipc} {q : Queues} (h : Refines s q) (c : Call) :
    (exec s c).2 = (Spec.exec q c).2 ∧ Refines (exec s c).1 (Spec.exec q c).1 := by
  cases c with
  | snd pid msg =>
      obtain ⟨hresult, hstate⟩ := snd_refines h pid msg
      exact ⟨by simp only [exec, Spec.exec, hresult], hstate⟩
  | rcv pid out mask => exact rcv_refines h pid out mask
  | chk pid out mask => exact rcv_refines h pid out mask

theorem run_refines {s : Ipc} {q : Queues} (h : Refines s q) (cs : List Call) :
    (run s cs).2 = (Spec.run q cs).2 ∧ Refines (run s cs).1 (Spec.run q cs).1 := by
  induction cs generalizing s q with
  | nil => exact ⟨rfl, h⟩
  | cons c cs ih =>
      obtain ⟨hresult, hstate⟩ := exec_refines h c
      obtain ⟨hresults, hfinal⟩ := ih hstate
      exact ⟨by simp only [run, Spec.run, hresult, hresults], hfinal⟩

-- A call that changes a mailbox is a call on its pid that returns E_OK.
theorem mailboxes_snd {s : Ipc} {q : Queues} (h : Refines s q) (p pid : Int)
    (msg : Option Message) :
    (sndMsg s p msg).1.mailboxes pid = s.mailboxes pid ∨ pid = p ∧ (sndMsg s p msg).2 = E_OK := by
  unfold sndMsg
  split
  · exact .inl rfl
  · rename_i msg
    split_ifs
    · exact .inl rfl
    · exact .inl rfl
    · simp only [mailboxes_ensureInit h, Ipc.set]
      by_cases hp : pid = p
      · subst hp
        by_cases hfull : (s.mailboxes pid).count = maxQueuedMsgs
        · simp [put_full hfull]
        · exact .inr ⟨rfl, (put_room (h.holds pid).wellFormed hfull msg).1⟩
      · exact .inl (Function.update_of_ne hp _ _)

theorem mailboxes_rcv {s : Ipc} {q : Queues} (h : Refines s q) (p pid : Int) (out : Bool)
    (mask : Nat) :
    (rcvMsg s p out mask).1.mailboxes pid = s.mailboxes pid ∨
      pid = p ∧ (rcvMsg s p out mask).2.1 = E_OK := by
  unfold rcvMsg
  split_ifs
  · exact .inl rfl
  · exact .inl rfl
  · simp only [mailboxes_ensureInit h]
    split
    · by_cases hp : pid = p
      · exact .inr ⟨hp, rfl⟩
      · exact .inl (by simp [Ipc.set, hp, mailboxes_ensureInit h])
    · exact .inl (by rw [mailboxes_ensureInit h])

theorem mailboxes_exec {s : Ipc} {q : Queues} (h : Refines s q) (c : Call) (pid : Int) :
    (exec s c).1.mailboxes pid = s.mailboxes pid ∨ pid = c.pid ∧ (exec s c).2.1 = E_OK := by
  cases c with
  | snd p msg => exact mailboxes_snd h p pid msg
  | rcv p out mask => exact mailboxes_rcv h p pid out mask
  | chk p out mask => exact mailboxes_rcv h p pid out mask

theorem mailboxes_are_fifos (cs : List Call) :
    let s := (run .start cs).1
    let q := (Spec.run (fun _ => .empty) cs).1
    (run .start cs).2 = (Spec.run (fun _ => .empty) cs).2 ∧
      (∀ pid, (s.mailboxes pid).contents = (q pid).pending.map Prod.fst ∧
        (s.mailboxes pid).count = (q pid).pending.length ∧ (s.mailboxes pid).count ≤ 64 ∧
        (s.mailboxes pid).tail = ((s.mailboxes pid).head + (s.mailboxes pid).count) % 64) ∧
      ∀ c pid, pid ≠ c.pid ∨ (exec s c).2.1 ≠ E_OK →
        (exec s c).1.mailboxes pid = s.mailboxes pid := by
  obtain ⟨hresults, hstate⟩ := run_refines refines_start cs
  refine ⟨hresults, fun pid => ?_, fun c pid hc => ?_⟩
  swap
  · obtain heq | ⟨hpid, hok⟩ := mailboxes_exec hstate c pid
    · exact heq
    · exact absurd hc (by simp [hpid, hok])
  have hpid := hstate.holds pid
  exact ⟨hpid.contents_eq, hpid.length_eq.symm, hpid.wellFormed.count_le, hpid.wellFormed.tail_eq⟩

end BTron.IpcMsg
