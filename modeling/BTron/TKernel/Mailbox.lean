import BTron.Lib.DList
import BTron.Lib.Run
import BTron.TKernel.Wait
import Mathlib.Data.List.TakeWhile

namespace BTron.TKernel.Mailbox

open Lib

-- The control block, and of the memory the two words of a message the mailbox reads: `next` is
-- nextmsg, with 0 for NULL, and `head` the address of `mq_head`. `mpri` is TA_MPRI.
structure Mbx where
  gcb : Gcb Unit
  mpri : Bool
  head : Nat
  mqTail : Nat
  next : Nat → Nat
  msgpri : Nat → Int

-- Nothing is returned where the loop does not end.
def queueInsertMpri (next : Nat → Nat) (msgpri : Nat → Int) (pkMsg : Nat) :
    Nat → Nat → Option (Nat → Nat)
  | 0, _ => none
  | fuel + 1, prevmsg =>
    let msg := next prevmsg
    if msg ≠ 0 ∧ ¬msgpri msg > msgpri pkMsg then queueInsertMpri next msgpri pkMsg fuel msg
    else some (Function.update (Function.update next pkMsg msg) prevmsg pkMsg)

def creMbx (tpri mpri nodiswai : Bool) (head mqTail : Nat) (next : Nat → Nat)
    (msgpri : Nat → Int) : Mbx :=
  ⟨⟨[], tpri, nodiswai⟩, mpri, head, mqTail, Function.update next head 0, msgpri⟩

-- A message a task has received
structure Received where
  tskid : Nat
  msg : Nat

def sndMbx (fuel : Nat) (mbx : Mbx) (pkMsg : Nat) : Option (Er × List Received × Mbx) :=
  if mbx.mpri ∧ mbx.msgpri pkMsg ≤ 0 then some (.par, [], mbx)
  else
    match mbx.gcb.waitQueue with
    | tcb :: q => some (.ok, [⟨tcb.tskid, pkMsg⟩], { mbx with gcb.waitQueue := q })
    | [] =>
      if mbx.mpri then
        (queueInsertMpri mbx.next mbx.msgpri pkMsg fuel mbx.head).map fun next =>
          (.ok, [], { mbx with next })
      else
        let next := Function.update mbx.next pkMsg 0
        let next := if next mbx.head = 0 then Function.update next mbx.head pkMsg
          else Function.update next mbx.mqTail pkMsg
        some (.ok, [], { mbx with next, mqTail := pkMsg })

-- The call of a task, which waits where no error code comes back.
def rcvMbx (mbx : Mbx) (tskid priority : Nat) (masked : Bool) (tmout : Int) :
    Option Er × List Received × Mbx :=
  if ¬tmout ≥ -1 then (some .par, [], mbx)
  else if isDiswai mbx.gcb masked then (some .diswai, [], mbx)
  else if mbx.next mbx.head ≠ 0 then
    (some .ok, [⟨tskid, mbx.next mbx.head⟩],
      { mbx with next := Function.update mbx.next mbx.head (mbx.next (mbx.next mbx.head)) })
  else
    let (ercd, gcb) := gcbMakeWaitWithDiswai mbx.gcb masked ⟨tskid, priority, ()⟩ tmout
    (ercd, [], { mbx with gcb })

-- The mailbox with the messages it took, the time each of them was taken last, and who received
-- what.
structure State where
  mbx : Mbx
  accepted : List Nat
  stamp : Nat → Nat
  received : List Received

-- What the sender has written before it sends
def fill (mbx : Mbx) (pkMsg junk : Nat) (msgpri : Int) : Mbx :=
  { mbx with next := Function.update mbx.next pkMsg junk,
             msgpri := Function.update mbx.msgpri pkMsg msgpri }

-- The message lies neither in the mailbox nor at its head.
def Outside (mbx : Mbx) (pkMsg : Nat) : Prop :=
  pkMsg ≠ 0 ∧ ∀ l, Chain mbx.next 0 mbx.head l → pkMsg ∉ mbx.head :: l

inductive Step : State → State → Prop
  | snd (s : State) (pkMsg junk : Nat) (msgpri : Int) (fuel : Nat) {ercd : Er}
      {got : List Received} {mbx : Mbx} (hout : Outside s.mbx pkMsg)
      (hret : sndMbx fuel (fill s.mbx pkMsg junk msgpri) pkMsg = some (ercd, got, mbx)) :
      Step s (if ercd = .ok then
        ⟨mbx, s.accepted ++ [pkMsg], Function.update s.stamp pkMsg s.accepted.length,
          s.received ++ got⟩ else ⟨mbx, s.accepted, s.stamp, s.received⟩)
  | rcv (s : State) (tskid priority : Nat) (masked : Bool) (tmout : Int)
      (hrun : s.mbx.gcb.Lacks tskid) :
      Step s ⟨(rcvMbx s.mbx tskid priority masked tmout).2.2, s.accepted, s.stamp,
        s.received ++ (rcvMbx s.mbx tskid priority masked tmout).2.1⟩
  | relWai (s : State) (tskid : Nat) :
      Step s { s with mbx.gcb := gcbWithout s.mbx.gcb tskid }
  | chgPri (s : State) (w : Waiter Unit) (priority : Nat) (hw : w ∈ s.mbx.gcb.waitQueue)
      (htpri : s.mbx.gcb.tpri = true) :
      Step s { s with mbx.gcb := gcbChangePriority s.mbx.gcb w priority }

-- Which of two messages in the mailbox is received first
def Before (mbx : Mbx) (stamp : Nat → Nat) (a b : Nat) : Prop :=
  if mbx.mpri then mbx.msgpri a < mbx.msgpri b ∨ mbx.msgpri a = mbx.msgpri b ∧ stamp a < stamp b
  else stamp a < stamp b

-- The messages `l` are in the mailbox, in this order.
structure Holds (s : State) (l : List Nat) : Prop where
  chain : Chain s.mbx.next 0 s.mbx.head l
  nodup : (s.mbx.head :: l).Nodup
  null : 0 ∉ s.mbx.head :: l
  tail : s.mbx.mpri = false → ∀ h : l ≠ [], s.mbx.mqTail = l.getLast h
  order : l.Pairwise (Before s.mbx s.stamp)
  old : ∀ m ∈ l, s.stamp m < s.accepted.length
  -- Nobody waits while there is a message.
  quiet : l ≠ [] → s.mbx.gcb.waitQueue = []
  orderly : s.mbx.gcb.Orderly
  kept : (s.received.map Received.msg ++ l).Perm s.accepted
  fifo : s.mbx.mpri = false → s.received.map Received.msg ++ l = s.accepted

variable {s s' : State} {l : List Nat} {pkMsg junk : Nat} {msgpri : Int}

-- The loop hangs the message in behind the last of those that are not less urgent.
theorem queueInsertMpri_spec {next next' : Nat → Nat} {pri : Nat → Int} {prevmsg fuel : Nat}
    (h : Chain next 0 prevmsg l) (hnull : 0 ∉ l)
    (hret : queueInsertMpri next pri pkMsg fuel prevmsg = some next') :
    next' = Function.update (Function.update next pkMsg
      (next ((prevmsg :: l.takeWhile (pri · ≤ pri pkMsg)).getLast (by simp))))
      ((prevmsg :: l.takeWhile (pri · ≤ pri pkMsg)).getLast (by simp)) pkMsg := by
  induction fuel generalizing prevmsg l with
  | zero => cases hret
  | succ fuel ih =>
      rw [queueInsertMpri] at hret
      cases l with
      | nil =>
          have hnext : next prevmsg = 0 := h
          rw [if_neg fun hand => hand.1 hnext] at hret
          exact (Option.some.inj hret).symm
      | cons y l =>
          have hnext : next prevmsg = y := h.1
          have hy : y ≠ 0 := fun heq => hnull (heq ▸ List.mem_cons_self)
          simp only [hnext] at hret
          by_cases hle : pri y ≤ pri pkMsg
          · rw [if_pos ⟨hy, not_lt.mpr hle⟩] at hret
            rw [ih h.2 (fun hmem => hnull (List.mem_cons_of_mem y hmem)) hret]
            simp only [List.takeWhile_cons, hle, decide_true, if_true,
              List.getLast_cons (List.cons_ne_nil _ _)]
          · rw [if_neg fun hand => hle (not_lt.mp hand.2)] at hret
            rw [← Option.some.inj hret]
            simp only [List.takeWhile_cons, hle, decide_false, Bool.false_eq_true, if_false,
              List.getLast_singleton, hnext]

-- It ends, as it comes past each message once.
theorem queueInsertMpri_returns {next : Nat → Nat} {prevmsg fuel : Nat} (pri : Nat → Int)
    (pkMsg : Nat) (h : Chain next 0 prevmsg l) (hfuel : l.length < fuel) :
    ∃ next', queueInsertMpri next pri pkMsg fuel prevmsg = some next' := by
  induction fuel generalizing prevmsg l with
  | zero => exact absurd hfuel (Nat.not_lt_zero _)
  | succ fuel ih =>
      rw [queueInsertMpri]
      cases l with
      | nil =>
          have hnext : next prevmsg = 0 := h
          exact ⟨_, if_neg fun hand => hand.1 hnext⟩
      | cons y l =>
          rw [h.1]
          split
          · exact ih h.2 (Nat.lt_of_succ_lt_succ hfuel)
          · exact ⟨_, rfl⟩

-- What a sender writes into its message changes nothing of the mailbox.
theorem Holds.fill (h : Holds s l) (hout : Outside s.mbx pkMsg) :
    Holds { s with mbx := fill s.mbx pkMsg junk msgpri } l := by
  have hnot := hout.2 l h.chain
  refine ⟨h.chain.congr ?_, h.nodup, h.null, h.tail, h.order.imp_of_mem ?_, h.old, h.quiet,
    h.orderly, h.kept, h.fifo⟩
  · intro y hy
    exact Function.update_of_ne (ne_of_mem_of_not_mem hy hnot) _ _
  · intro a b ha hb hab
    have hpri : ∀ {m}, m ∈ l → Function.update s.mbx.msgpri pkMsg msgpri m = s.mbx.msgpri m :=
      fun hm => Function.update_of_ne (ne_of_mem_of_not_mem (List.mem_cons_of_mem _ hm) hnot) _ _
    rw [Before] at hab ⊢
    simp only [Mailbox.fill, hpri ha, hpri hb]
    exact hab

theorem before_iff_of_ne {mbx : Mbx} {stamp : Nat → Nat} {n a b : Nat} (ha : a ≠ pkMsg)
    (hb : b ≠ pkMsg) : Before mbx (Function.update stamp pkMsg n) a b ↔ Before mbx stamp a b := by
  rw [Before, Before, Function.update_of_ne ha, Function.update_of_ne hb]

-- A message is hung in between those before it and those behind it.
theorem Holds.hang {a b : List Nat} (h : Holds s (a ++ b)) (hzero : pkMsg ≠ 0)
    (hnot : pkMsg ∉ s.mbx.head :: (a ++ b)) (hempty : s.mbx.gcb.waitQueue = []) {mqTail : Nat}
    (htail : s.mbx.mpri = false → b = [] ∧ mqTail = pkMsg)
    (hbefore : ∀ x ∈ a, Before s.mbx (Function.update s.stamp pkMsg s.accepted.length) x pkMsg)
    (hafter : ∀ x ∈ b, Before s.mbx (Function.update s.stamp pkMsg s.accepted.length) pkMsg x) :
    Holds ⟨{ s.mbx with
        next := Function.update (Function.update s.mbx.next pkMsg
          (s.mbx.next ((s.mbx.head :: a).getLast (by simp))))
          ((s.mbx.head :: a).getLast (by simp)) pkMsg,
        mqTail },
      s.accepted ++ [pkMsg], Function.update s.stamp pkMsg s.accepted.length, s.received⟩
      (a ++ pkMsg :: b) := by
  have hperm : (a ++ pkMsg :: b).Perm (pkMsg :: (a ++ b)) := List.perm_middle
  have hne : ∀ {x}, x ∈ a ++ b → x ≠ pkMsg :=
    fun hx => ne_of_mem_of_not_mem (List.mem_cons_of_mem _ hx) hnot
  refine ⟨h.chain.insert h.nodup hnot, ?_, ?_, ?_, ?_, ?_, fun _ => hempty, h.orderly, ?_, ?_⟩
  · rw [(hperm.cons s.mbx.head).nodup_iff, (List.Perm.swap pkMsg s.mbx.head (a ++ b)).nodup_iff]
    exact List.nodup_cons.mpr ⟨hnot, h.nodup⟩
  · intro hmem
    obtain heq | hmem := List.mem_cons.mp ((hperm.cons s.mbx.head).subset hmem)
    · exact h.null (heq ▸ List.mem_cons_self)
    · obtain heq | hmem := List.mem_cons.mp hmem
      · exact hzero heq.symm
      · exact h.null (List.mem_cons_of_mem _ hmem)
  · intro hmpri _
    obtain ⟨rfl, rfl⟩ := htail hmpri
    exact List.getLast_concat.symm
  · obtain ⟨ha, hb, hab⟩ := List.pairwise_append.mp h.order
    refine List.pairwise_append.mpr ⟨?_, List.pairwise_cons.mpr ⟨hafter, ?_⟩, ?_⟩
    · exact ha.imp_of_mem fun hx hy => (before_iff_of_ne (hne (List.mem_append_left b hx))
        (hne (List.mem_append_left b hy))).mpr
    · exact hb.imp_of_mem fun hx hy => (before_iff_of_ne (hne (List.mem_append_right a hx))
        (hne (List.mem_append_right a hy))).mpr
    · intro x hx y hy
      obtain rfl | hy := List.mem_cons.mp hy
      · exact hbefore x hx
      · exact (before_iff_of_ne (hne (List.mem_append_left b hx))
          (hne (List.mem_append_right a hy))).mpr (hab x hx y hy)
  · intro m hm
    rw [List.length_append, List.length_singleton]
    dsimp only
    obtain rfl | hm := List.mem_cons.mp (hperm.subset hm)
    · rw [Function.update_self]
      omega
    · rw [Function.update_of_ne (hne hm)]
      have hold := h.old m hm
      omega
  · refine ((hperm.append_left _).trans ?_).trans (h.kept.append_right [pkMsg])
    rw [List.append_assoc]
    exact (List.perm_append_singleton pkMsg (a ++ b)).symm.append_left _
  · intro hmpri
    obtain ⟨rfl, -⟩ := htail hmpri
    have hfifo := h.fifo hmpri
    rw [List.append_nil] at hfifo
    dsimp only
    rw [← List.append_assoc, hfifo]

-- What is behind the first that is more urgent is more urgent.
theorem Holds.dropWhile_after (h : Holds s l) (hmpri : s.mbx.mpri = true) {p : Int} {x : Nat}
    (hx : x ∈ l.dropWhile (s.mbx.msgpri · ≤ p)) : p < s.mbx.msgpri x := by
  have hpair := h.order.sublist (List.dropWhile_sublist (s.mbx.msgpri · ≤ p))
  cases hd : l.dropWhile (s.mbx.msgpri · ≤ p) with
  | nil =>
      rw [hd] at hx
      exact absurd hx List.not_mem_nil
  | cons y r =>
      have hy : p < s.mbx.msgpri y := by
        have hnot := List.head_dropWhile_not (s.mbx.msgpri · ≤ p) (l := l) (by simp [hd])
        simp only [hd, List.head_cons, decide_eq_false_iff_not, not_le] at hnot
        exact hnot
      rw [hd] at hx hpair
      obtain rfl | hx := List.mem_cons.mp hx
      · exact hy
      · have hyx := (List.pairwise_cons.mp hpair).1 x hx
        rw [Before, if_pos hmpri] at hyx
        omega

theorem Holds.snd (h : Holds s l) (hzero : pkMsg ≠ 0) (hnot : pkMsg ∉ s.mbx.head :: l)
    {fuel : Nat} {ercd : Er} {got : List Received} {mbx : Mbx}
    (hret : sndMbx fuel s.mbx pkMsg = some (ercd, got, mbx)) :
    ∃ l', Holds (if ercd = .ok then ⟨mbx, s.accepted ++ [pkMsg],
      Function.update s.stamp pkMsg s.accepted.length, s.received ++ got⟩
      else ⟨mbx, s.accepted, s.stamp, s.received⟩) l' := by
  have hold : ∀ x ∈ l, Function.update s.stamp pkMsg s.accepted.length x <
      Function.update s.stamp pkMsg s.accepted.length pkMsg := by
    intro x hx
    rw [Function.update_self, Function.update_of_ne
      (ne_of_mem_of_not_mem (List.mem_cons_of_mem _ hx) hnot)]
    exact h.old x hx
  rw [sndMbx] at hret
  split at hret
  · cases hret
    exact ⟨l, h⟩
  · split at hret
    · rename_i tcb q hq
      cases hret
      have hl : l = [] := by
        by_contra hne
        rw [h.quiet hne] at hq
        cases hq
      subst hl
      have hsub : q.Sublist s.mbx.gcb.waitQueue := hq ▸ List.sublist_cons_self tcb q
      have hkept := h.kept
      rw [List.append_nil] at hkept
      rw [if_pos rfl]
      refine ⟨[], h.chain, h.nodup, h.null, fun _ hne => absurd rfl hne, .nil,
        fun m hm => absurd hm List.not_mem_nil, fun hne => absurd rfl hne,
        h.orderly.sublist hsub, ?_, ?_⟩
      · rw [List.append_nil, List.map_append]
        exact hkept.append_right [pkMsg]
      · intro hmpri
        have hfifo := h.fifo hmpri
        rw [List.append_nil] at hfifo
        rw [List.append_nil, List.map_append, hfifo]
        rfl
    · rename_i hempty
      split at hret
      · rename_i hmpri
        obtain ⟨next, hins, heq⟩ := Option.map_eq_some_iff.mp hret
        cases heq
        have hspec := queueInsertMpri_spec h.chain
          (fun hmem => h.null (List.mem_cons_of_mem _ hmem)) hins
        have hafter := fun x hx => h.dropWhile_after (p := s.mbx.msgpri pkMsg) (x := x) hmpri hx
        have hbefore : ∀ x ∈ l.takeWhile (s.mbx.msgpri · ≤ s.mbx.msgpri pkMsg),
            x ∈ l ∧ s.mbx.msgpri x ≤ s.mbx.msgpri pkMsg := by
          intro x hx
          have hle := List.mem_takeWhile_imp hx
          exact ⟨(List.takeWhile_sublist _).subset hx, by simpa using hle⟩
        have hl := List.takeWhile_append_dropWhile
          (p := (s.mbx.msgpri · ≤ s.mbx.msgpri pkMsg)) (l := l)
        rw [hspec, if_pos rfl, List.append_nil]
        refine ⟨_, Holds.hang (hl.symm ▸ h) hzero (hl.symm ▸ hnot) hempty (fun hno => ?_) ?_ ?_⟩
        · rw [hmpri] at hno
          cases hno
        · intro x hx
          rw [Before, if_pos hmpri]
          have hlt := hold x (hbefore x hx).1
          have hle := (hbefore x hx).2
          omega
        · intro x hx
          rw [Before, if_pos hmpri]
          exact .inl (hafter x hx)
      · rename_i hmpri
        have hmpri : s.mbx.mpri = false := by simpa using hmpri
        cases hret
        rw [if_pos rfl, List.append_nil]
        have hhang := Holds.hang (a := l) (b := []) (s := s)
          (by rwa [List.append_nil]) hzero (by rwa [List.append_nil]) hempty (fun _ => ⟨rfl, rfl⟩)
          (fun x hx => by
            rw [Before, hmpri, if_neg (by decide)]
            exact hold x hx) fun x hx => absurd hx List.not_mem_nil
        have hhead : Function.update s.mbx.next pkMsg 0 s.mbx.head = l.headD 0 := by
          rw [Function.update_of_ne (ne_of_mem_of_not_mem List.mem_cons_self hnot)]
          exact h.chain.first
        refine ⟨l ++ [pkMsg], ?_⟩
        rw [hhead]
        rw [h.chain.last] at hhang
        cases hl : l with
        | nil =>
            subst hl
            exact hhang
        | cons y r =>
            have hy : y ≠ 0 := fun heq => h.null (hl ▸ heq ▸ by simp)
            have htail := h.tail hmpri (hl ▸ List.cons_ne_nil y r)
            subst hl
            rw [List.headD_cons, if_neg hy, htail]
            rw [List.getLast_cons (List.cons_ne_nil y r)] at hhang
            exact hhang

-- The call of a task: it gets the first message, or comes back without, or waits.
theorem rcvMbx_cases (mbx : Mbx) (tskid priority : Nat) (masked : Bool) (tmout : Int) :
    (∃ ercd, rcvMbx mbx tskid priority masked tmout = (some ercd, [], mbx)) ∨
      mbx.next mbx.head ≠ 0 ∧ rcvMbx mbx tskid priority masked tmout =
        (some .ok, [⟨tskid, mbx.next mbx.head⟩], { mbx with
          next := Function.update mbx.next mbx.head (mbx.next (mbx.next mbx.head)) }) ∨
      mbx.next mbx.head = 0 ∧ rcvMbx mbx tskid priority masked tmout =
        (none, [], { mbx with gcb := gcbMakeWait mbx.gcb ⟨tskid, priority, ()⟩ }) := by
  rw [rcvMbx]
  split
  · exact .inl ⟨.par, rfl⟩
  · split
    · exact .inl ⟨.diswai, rfl⟩
    · split
      · rename_i hne
        exact .inr (.inl ⟨hne, rfl⟩)
      · rename_i heq
        obtain ⟨ercd, _, hwait⟩ | ⟨_, hwait⟩ :=
          gcbMakeWaitWithDiswai_cases mbx.gcb masked ⟨tskid, priority, ()⟩ tmout
        · exact .inl ⟨ercd, by rw [hwait]⟩
        · exact .inr (.inr ⟨not_not.mp heq, by rw [hwait]⟩)

theorem Holds.rcv {tskid priority : Nat} {masked : Bool} {tmout : Int} (h : Holds s l)
    (hrun : s.mbx.gcb.Lacks tskid) :
    ∃ l', Holds ⟨(rcvMbx s.mbx tskid priority masked tmout).2.2, s.accepted, s.stamp,
      s.received ++ (rcvMbx s.mbx tskid priority masked tmout).2.1⟩ l' := by
  have hfirst := h.chain.first
  obtain ⟨ercd, heq⟩ | ⟨hne, heq⟩ | ⟨hzero, heq⟩ :=
    rcvMbx_cases s.mbx tskid priority masked tmout
  · rw [heq, List.append_nil]
    exact ⟨l, h⟩
  · rw [heq]
    cases l with
    | nil => exact absurd hfirst hne
    | cons m r =>
        rw [List.headD_cons] at hfirst
        rw [hfirst]
        obtain ⟨hhead, hnd⟩ := List.nodup_cons.mp h.nodup
        have hlist : s.received.map Received.msg ++ m :: r =
            (s.received ++ [(⟨tskid, m⟩ : Received)]).map Received.msg ++ r := by
          rw [List.map_append, List.append_assoc]
          rfl
        refine ⟨r, h.chain.tail h.nodup, ?_, ?_, ?_, h.order.of_cons,
          fun x hx => h.old x (List.mem_cons_of_mem m hx),
          fun _ => h.quiet (List.cons_ne_nil m r), h.orderly, ?_, ?_⟩
        · exact List.nodup_cons.mpr ⟨fun hmem => hhead (List.mem_cons_of_mem m hmem),
            (List.nodup_cons.mp hnd).2⟩
        · intro hmem
          obtain heq | hmem := List.mem_cons.mp hmem
          · exact h.null (heq ▸ List.mem_cons_self)
          · exact h.null (List.mem_cons_of_mem _ (List.mem_cons_of_mem m hmem))
        · intro hmpri hr
          exact (h.tail hmpri (List.cons_ne_nil m r)).trans (List.getLast_cons hr)
        · exact hlist ▸ h.kept
        · exact fun hmpri => hlist ▸ h.fifo hmpri
  · rw [heq, List.append_nil]
    have hl : l = [] := by
      cases l with
      | nil => rfl
      | cons m r =>
          rw [List.headD_cons, hzero] at hfirst
          exact absurd (hfirst ▸ by simp) h.null
    subst hl
    exact ⟨[], h.chain, h.nodup, h.null, h.tail, h.order, h.old, fun hne => absurd rfl hne,
      h.orderly.makeWait hrun, h.kept, h.fifo⟩

theorem holds_step (h : Holds s l) (hstep : Step s s') : ∃ l', Holds s' l' := by
  cases hstep with
  | snd pkMsg junk msgpri fuel hout hret =>
      exact (h.fill hout).snd hout.1 (hout.2 l h.chain) hret
  | rcv tskid priority masked tmout hrun => exact h.rcv hrun
  | relWai tskid =>
      refine ⟨l, h.chain, h.nodup, h.null, h.tail, h.order, h.old, ?_, h.orderly.without tskid,
        h.kept, h.fifo⟩
      intro hne
      rw [gcbWithout, h.quiet hne]
      rfl
  | chgPri w priority hw htpri =>
      refine ⟨l, h.chain, h.nodup, h.null, h.tail, h.order, h.old, ?_,
        h.orderly.changePriority htpri, h.kept, h.fifo⟩
      intro hne
      rw [h.quiet hne] at hw
      exact absurd hw List.not_mem_nil

theorem holds_creMbx {tpri mpri nodiswai : Bool} {head mqTail : Nat} {next : Nat → Nat}
    {pri : Nat → Int} {stamp : Nat → Nat} (hhead : head ≠ 0) :
    Holds ⟨creMbx tpri mpri nodiswai head mqTail next pri, [], stamp, []⟩ [] :=
  ⟨Function.update_self _ _ _, List.nodup_singleton head,
    fun hmem => hhead (List.mem_singleton.mp hmem).symm, fun _ hne => absurd rfl hne, .nil,
    fun _ hm => absurd hm List.not_mem_nil, fun _ => rfl, ⟨List.nodup_nil, fun _ => .nil⟩,
    .refl _, fun _ => rfl⟩

end BTron.TKernel.Mailbox
