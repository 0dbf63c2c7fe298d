import BTron.Event
import BTron.Lib.Fifo
import BTron.Lib.Ring

namespace BTron.Event

open Lib

-- The events queued, the oldest first.
def Queue.contents (s : Queue) : List Evt := ringList EVENT_QUEUE_SIZE s.queue s.head s.count

structure Queue.WellFormed (s : Queue) : Prop where
  head_lt : s.head < EVENT_QUEUE_SIZE
  count_le : s.count ≤ EVENT_QUEUE_SIZE
  tail_eq : s.tail = (s.head + s.count) % EVENT_QUEUE_SIZE

theorem wellFormed_start : Queue.start.WellFormed := ⟨by decide, by decide, rfl⟩

-- The type of an event is in a mask.
def inMask (mask : Nat) (evt : Evt) : Bool := mask.testBit evt.type.val

theorem and_evMask (mask : Nat) (evt : Evt) :
    mask &&& evMask evt.type = 0 ↔ inMask mask evt = false := by
  rw [evMask, inMask, Nat.one_shiftLeft, Nat.and_two_pow]
  cases mask.testBit evt.type.val <;> simp

theorem matchesMask_eq (mask : Nat) (evt : Evt) :
    matchesMask mask evt = (mask == 0 || inMask mask evt) := by
  have hbit := and_evMask mask evt
  rw [matchesMask]
  cases hin : inMask mask evt with
  | false => rw [hbit.mpr hin]; rfl
  | true =>
      have hne : mask &&& evMask evt.type ≠ 0 := fun h => by
        rw [hbit.mp h] at hin
        cases hin
      rw [bne_iff_ne.mpr hne]

theorem snd_full {s : Queue} (hfull : s.count = EVENT_QUEUE_SIZE) (evt : Evt) :
    sndEvt s (some evt) = (s, E_BUSY) := by
  rw [sndEvt, if_pos (by omega)]

theorem snd_room {s : Queue} (hs : s.WellFormed) (hroom : s.count ≠ EVENT_QUEUE_SIZE) (evt : Evt) :
    (sndEvt s (some evt)).2 = E_OK ∧ (sndEvt s (some evt)).1.WellFormed ∧
      (sndEvt s (some evt)).1.contents = s.contents ++ [evt] := by
  have hlt : s.count < EVENT_QUEUE_SIZE := Nat.lt_of_le_of_ne hs.count_le hroom
  rw [sndEvt, if_neg (by omega)]
  refine ⟨rfl, ⟨hs.head_lt, hlt, ?_⟩, ?_⟩
  · rw [hs.tail_eq, Nat.mod_add_mod, Nat.add_assoc]
  · rw [Queue.contents, hs.tail_eq]
    exact ringList_push evt hlt

-- The oldest event is the one at the head.
theorem contents_eq_cons {s : Queue} (hs : s.WellFormed) (hcount : 0 < s.count) :
    s.contents = s.queue s.head ::
      ringList EVENT_QUEUE_SIZE s.queue ((s.head + 1) % EVENT_QUEUE_SIZE) (s.count - 1) := by
  have hsucc : s.count = s.count - 1 + 1 := by omega
  rw [Queue.contents, hsucc, ringList_succ, Nat.mod_eq_of_lt hs.head_lt]
  rfl

theorem get_wellFormed {s : Queue} (hs : s.WellFormed) (evt : Evt) :
    (getEvt s (some evt)).1.WellFormed := by
  unfold getEvt
  simp only
  split
  · rename_i hcount
    refine ⟨Nat.mod_lt _ (by decide), ?_, ?_⟩
    · have hle := hs.count_le
      show s.count - 1 ≤ EVENT_QUEUE_SIZE
      omega
    · have hsum : s.head + 1 + (s.count - 1) = s.head + s.count := by omega
      show s.tail = _
      rw [hs.tail_eq, Nat.mod_add_mod, hsum]
  · exact hs

-- The events that stay, as the first loop of `clr_evt` collects them.
theorem foldl_kept (mask : Nat) (evts temp : List Evt) :
    evts.foldl (fun temp evt => if mask &&& evMask evt.type = 0 then temp ++ [evt] else temp) temp =
      temp ++ evts.filter fun evt => !inMask mask evt := by
  induction evts generalizing temp with
  | nil => rw [List.foldl_nil, List.filter_nil, List.append_nil]
  | cons evt evts ih =>
      rw [List.foldl_cons, ih]
      by_cases hin : mask &&& evMask evt.type = 0
      · rw [if_pos hin, List.filter_cons_of_pos (by rw [(and_evMask mask evt).mp hin]; rfl),
          List.append_assoc]
        rfl
      · have hbit : inMask mask evt = true := by
          rw [and_evMask, Bool.not_eq_false] at hin
          exact hin
        rw [if_neg hin, List.filter_cons_of_neg (by simp [hbit])]

theorem clr_contents {s : Queue} (hs : s.WellFormed) (mask : Nat) :
    (clrEvt s mask).2 = E_OK ∧ (clrEvt s mask).1.WellFormed ∧
      (clrEvt s mask).1.contents = s.contents.filter fun evt => !inMask mask evt := by
  by_cases hmask : mask = 0
  · subst hmask
    have hall : (s.contents.filter fun evt => !inMask 0 evt) = s.contents :=
      List.filter_eq_self.mpr fun evt _ => by simp [inMask]
    rw [clrEvt, if_pos rfl, hall]
    exact ⟨rfl, hs, rfl⟩
  · have htemp := foldl_kept mask s.contents []
    rw [Queue.contents, ringList, List.foldl_map, ← ringList, ← Queue.contents,
      List.nil_append] at htemp
    have hlen : (s.contents.filter fun evt => !inMask mask evt).length ≤ EVENT_QUEUE_SIZE := by
      have hle := List.length_filter_le (fun evt => !inMask mask evt) s.contents
      have hcount := hs.count_le
      rw [Queue.contents, ringList_length, ← Queue.contents] at hle
      omega
    rw [clrEvt, if_neg hmask]
    simp only [htemp]
    refine ⟨trivial, ⟨Nat.zero_lt_of_lt (by decide : 0 < EVENT_QUEUE_SIZE), hlen, ?_⟩, ?_⟩
    · show _ = (0 + _) % _
      rw [Nat.zero_add]
    · exact ringList_of_list hlen

theorem pke_eq (s : Queue) (evt : Evt) (mask : Nat) :
    pkeEvt s (some evt) mask =
      match s.contents.find? fun e => mask == 0 || inMask mask e with
      | some e => (E_OK, some e)
      | none => (E_NOEXS, some evt) := by
  have hp : (fun e => mask == 0 || inMask mask e) = matchesMask mask :=
    funext fun e => (matchesMask_eq mask e).symm
  rw [hp, Queue.contents, ringList, List.find?_map, pkeEvt]
  simp only [Function.comp_def]
  cases (List.range s.count).find? _ with
  | none => rfl
  | some i => rfl

-- What the queue is for.
namespace Spec

def snd (q : Fifo Evt) (pEvt : Option Evt) : Fifo Evt × ER :=
  match pEvt with
  | none => (q, E_PAR)
  | some evt => if q.pending.length = EVENT_QUEUE_SIZE then (q, E_BUSY) else (q.send evt, E_OK)

def get (q : Fifo Evt) (pEvt : Option Evt) : Fifo Evt × Result :=
  match pEvt with
  | none => (q, E_PAR, none)
  | some evt =>
    match q.receive fun _ => true with
    | some (e, q') => (q', E_OK, some e)
    | none => (q, E_TMOUT, some { evt with type := .EV_NONE })

def pke (q : Fifo Evt) (pEvt : Option Evt) (mask : Nat) : Result :=
  match pEvt with
  | none => (E_PAR, none)
  | some evt =>
    match q.peek fun e => mask == 0 || inMask mask e with
    | some e => (E_OK, some e)
    | none => (E_NOEXS, some evt)

def exec (q : Fifo Evt) : Call → Fifo Evt × Result
  | .snd pEvt =>
    let (q, er) := snd q pEvt
    (q, er, pEvt)
  | .get pEvt => get q pEvt
  | .clr mask => (q.clear (inMask mask), E_OK, none)
  | .pke pEvt mask => (q, pke q pEvt mask)

def run (q : Fifo Evt) : List Call → Fifo Evt × List Result
  | [] => (q, [])
  | c :: cs =>
    let (q', r) := exec q c
    let (q'', rs) := run q' cs
    (q'', r :: rs)

end Spec

structure Holds (s : Queue) (q : Fifo Evt) : Prop where
  wellFormed : s.WellFormed
  valid : q.Valid
  contents_eq : s.contents = q.pending.map Prod.fst

theorem holds_start : Holds .start .empty := ⟨wellFormed_start, Fifo.valid_empty, rfl⟩

theorem Holds.length_eq {s : Queue} {q : Fifo Evt} (h : Holds s q) :
    q.pending.length = s.count := by
  have hlen := congrArg List.length h.contents_eq
  rw [Queue.contents, ringList_length, List.length_map] at hlen
  exact hlen.symm

theorem snd_refines {s : Queue} {q : Fifo Evt} (h : Holds s q) (pEvt : Option Evt) :
    (sndEvt s pEvt).2 = (Spec.snd q pEvt).2 ∧ Holds (sndEvt s pEvt).1 (Spec.snd q pEvt).1 := by
  cases pEvt with
  | none => exact ⟨rfl, h⟩
  | some evt =>
      rw [Spec.snd, h.length_eq]
      by_cases hfull : s.count = EVENT_QUEUE_SIZE
      · rw [snd_full hfull, if_pos hfull]
        exact ⟨rfl, h⟩
      · obtain ⟨hok, hwf, hcontents⟩ := snd_room h.wellFormed hfull evt
        rw [if_neg hfull]
        refine ⟨hok, hwf, Fifo.valid_send h.valid evt, ?_⟩
        rw [hcontents, h.contents_eq, Fifo.pending_send h.valid, List.map_append]
        rfl

-- Both levels take the first event there is.
theorem get_refines {s : Queue} {q : Fifo Evt} (h : Holds s q) (pEvt : Option Evt) :
    (getEvt s pEvt).2 = (Spec.get q pEvt).2 ∧ Holds (getEvt s pEvt).1 (Spec.get q pEvt).1 := by
  cases pEvt with
  | none => exact ⟨rfl, h⟩
  | some evt =>
      rw [Spec.get]
      by_cases hcount : 0 < s.count
      · have hne : q.receive (fun _ => true) ≠ none := by
          intro hnone
          have hpos : 0 < q.pending.length := by rw [h.length_eq]; exact hcount
          exact Fifo.receive_eq_none_iff.mp hnone _ (List.getElem_mem hpos) rfl
        obtain ⟨⟨e, q'⟩, hreceive⟩ := Option.ne_none_iff_exists'.mp hne
        obtain ⟨hvalid, i, hi, rfl, -, hbefore, hpending⟩ := Fifo.receive_eq_some h.valid hreceive
        obtain rfl : i = 0 := by
          by_contra hpos
          exact hbefore 0 (by omega) rfl
        have hwf := get_wellFormed h.wellFormed evt
        have hcons := contents_eq_cons h.wellFormed hcount
        rw [h.contents_eq] at hcons
        have hhead : s.queue s.head = q.pending[0].1 := by
          have hget := List.getElem_of_eq hcons (i := 0) (by rw [List.length_map]; exact hi)
          rw [List.getElem_map] at hget
          exact hget.symm
        rw [hreceive]
        rw [getEvt, if_pos hcount] at hwf ⊢
        refine ⟨by rw [hhead], hwf, hvalid, ?_⟩
        rw [hpending, List.eraseIdx_zero, List.map_tail, hcons]
        rfl
      · have hnone : q.receive (fun _ => true) = none := by
          rw [Fifo.receive_eq_none_iff]
          intro e he
          have hpos := List.length_pos_of_mem he
          rw [h.length_eq] at hpos
          exact absurd hpos hcount
        rw [getEvt, if_neg hcount, hnone]
        exact ⟨rfl, h⟩

theorem clr_refines {s : Queue} {q : Fifo Evt} (h : Holds s q) (mask : Nat) :
    (clrEvt s mask).2 = E_OK ∧ Holds (clrEvt s mask).1 (q.clear (inMask mask)) := by
  obtain ⟨hok, hwf, hcontents⟩ := clr_contents h.wellFormed mask
  refine ⟨hok, hwf, Fifo.valid_clear h.valid _, ?_⟩
  rw [hcontents, h.contents_eq, Fifo.pending_clear, List.filter_map]
  rfl

theorem pke_refines {s : Queue} {q : Fifo Evt} (h : Holds s q) (pEvt : Option Evt) (mask : Nat) :
    pkeEvt s pEvt mask = Spec.pke q pEvt mask := by
  cases pEvt with
  | none => rfl
  | some evt => rw [pke_eq, h.contents_eq, Spec.pke, Fifo.peek]

theorem exec_refines {s : Queue} {q : Fifo Evt} (h : Holds s q) (c : Call) :
    (exec s c).2 = (Spec.exec q c).2 ∧ Holds (exec s c).1 (Spec.exec q c).1 := by
  cases c with
  | snd pEvt =>
      obtain ⟨hresult, hstate⟩ := snd_refines h pEvt
      exact ⟨by simp only [exec, Spec.exec, hresult], hstate⟩
  | get pEvt => exact get_refines h pEvt
  | clr mask =>
      obtain ⟨hresult, hstate⟩ := clr_refines h mask
      exact ⟨by simp only [exec, Spec.exec, hresult], hstate⟩
  | pke pEvt mask => exact ⟨pke_refines h pEvt mask, h⟩

theorem run_refines {s : Queue} {q : Fifo Evt} (h : Holds s q) (cs : List Call) :
    (run s cs).2 = (Spec.run q cs).2 ∧ Holds (run s cs).1 (Spec.run q cs).1 := by
  induction cs generalizing s q with
  | nil => exact ⟨rfl, h⟩
  | cons c cs ih =>
      obtain ⟨hresult, hstate⟩ := exec_refines h c
      obtain ⟨hresults, hfinal⟩ := ih hstate
      exact ⟨by simp only [run, Spec.run, hresult, hresults], hfinal⟩

-- Every run gives the results of the abstract queue, and queues what is pending there.
theorem event_queue_is_fifo (cs : List Call) :
    (run .start cs).2 = (Spec.run .empty cs).2 ∧
      (run .start cs).1.contents = (Spec.run .empty cs).1.pending.map Prod.fst ∧
      (run .start cs).1.contents.length ≤ EVENT_QUEUE_SIZE := by
  obtain ⟨hresults, hstate⟩ := run_refines holds_start cs
  refine ⟨hresults, hstate.contents_eq, ?_⟩
  rw [Queue.contents, ringList_length]
  exact hstate.wellFormed.count_le

end BTron.Event
