import BTron.Chat
import BTron.Lib.CText
import BTron.Lib.Latest
import BTron.Libstr.Memmove

namespace BTron.Chat

open Lib Lib.CArray
open ChatXml (ascii CHAT_MAX_LINE_LEN)

-- ChatMessage, its arrays byte by byte.
structure MessageCell where
  senderNick : Bytes
  timestamp : Bytes
  text : Bytes
  type : MsgType
  color : Nat

-- The transcript of a ChatWndContext
structure Transcript where
  history : Nat → MessageCell
  historyCount : Nat
  scrollY : Int

-- What `calloc` leaves of it.
def Transcript.zero : Transcript :=
  ⟨fun _ => ⟨fun _ => 0, fun _ => 0, fun _ => 0, .chat, 0⟩, 0, 0⟩

-- A time of day, hours, minutes and seconds with a leap second
abbrev Time := Fin 24 × Fin 60 × Fin 61

def twoDigits (n : Nat) : List UB := [UInt8.ofNat (48 + n / 10), UInt8.ofNat (48 + n % 10)]

-- "%H:%M:%S", which `get_current_time_str` writes. Without a time it writes that of noon.
def timeStr (t : Time) : List UB :=
  twoDigits t.1 ++ ascii ":" ++ twoDigits t.2.1 ++ ascii ":" ++ twoDigits t.2.2

-- The arguments of `append_message_to_wnd`, a string by its bytes, and the time of the call
structure Append where
  sender : Option (List UB)
  text : Option (List UB)
  time : Time
  type : MsgType
  color : Nat

-- A string as the array that `strncpy` reads.
def strncpyFrom (size : Int) (a : Bytes) (src : List UB) (n : Nat) : Option Bytes :=
  CArray.strncpy size a 0 ((cstr src).length + 1) (ofList (cstr src)) 0 n

-- The loop that shifts the history copies each entry to the place before it, from the first on.
def Transcript.shift (t : Transcript) : Transcript :=
  if t.historyCount ≥ CHAT_MAX_MSG_HISTORY then
    { t with
        history := Libstr.copyUp t.history 0 1 (CHAT_MAX_MSG_HISTORY - 1)
        historyCount := CHAT_MAX_MSG_HISTORY - 1 }
  else t

def Transcript.append (t : Transcript) (a : Append) : Option Transcript := do
  let t := t.shift
  let msg := t.history t.historyCount
  let senderNick ← strncpyFrom CHAT_MAX_NICK_LEN msg.senderNick (a.sender.getD (ascii "System"))
    (CHAT_MAX_NICK_LEN - 1)
  let text ← strncpyFrom CHAT_MAX_LINE_LEN msg.text (a.text.getD []) (CHAT_MAX_LINE_LEN - 1)
  let timestamp ← CArray.memcpy 12 msg.timestamp 0 (timeStr a.time ++ [0])
  let count := t.historyCount + 1
  some
    { history := Function.update t.history t.historyCount
        ⟨senderNick, timestamp, text, a.type, a.color⟩
      historyCount := count
      scrollY := if count > 12 then (count - 12) * 18 else 0 }

-- A message as far as an entry has room for it
structure Entry where
  senderNick : List UB
  time : Time
  text : List UB
  type : MsgType
  color : Nat

def Append.entry (a : Append) : Entry where
  senderNick := Lib.strncpy (a.sender.getD (ascii "System")) (CHAT_MAX_NICK_LEN - 1)
  time := a.time
  text := Lib.strncpy (a.text.getD []) (CHAT_MAX_LINE_LEN - 1)
  type := a.type
  color := a.color

-- An entry shows a message, each of its arrays as a string with a NUL.
structure MessageCell.Shows (m : MessageCell) (e : Entry) : Prop where
  senderNick : Holds CHAT_MAX_NICK_LEN m.senderNick e.senderNick
  timestamp : Holds 12 m.timestamp (timeStr e.time)
  text : Holds CHAT_MAX_LINE_LEN m.text e.text
  type : m.type = e.type
  color : m.color = e.color

-- The last bytes, which no copy writes, are those of the zeroed context.
structure MessageCell.Ended (m : MessageCell) : Prop where
  senderNick : m.senderNick (CHAT_MAX_NICK_LEN - 1 : Nat) = 0
  text : m.text (CHAT_MAX_LINE_LEN - 1 : Nat) = 0

structure Transcript.Shows (t : Transcript) (log : List Entry) : Prop where
  latest : Latest CHAT_MAX_MSG_HISTORY MessageCell.Shows t.history t.historyCount log
  ended : ∀ k, (t.history k).Ended

theorem timeStr_ascii (t : Time) : 0 ∉ timeStr t ∧ (timeStr t).length = 8 := by
  have hdigit : ∀ n : Nat, n < 100 → 0 ∉ twoDigits n := by
    decide
  obtain ⟨h, m, s⟩ := t
  have hh := hdigit h (by omega)
  have hm := hdigit m (by omega)
  have hs := hdigit s (by omega)
  constructor
  · simp only [timeStr, List.mem_append, not_or]
    exact ⟨⟨⟨⟨hh, by decide⟩, hm⟩, by decide⟩, hs⟩
  · rfl

-- A string is copied as far as the array has room for it and a NUL.
theorem strncpyFrom_spec (size : Int) {a : Bytes} (src : List UB) {n : Nat}
    (hroom : (n : Int) < size) (hend : a n = 0) :
    ∃ c, strncpyFrom size a src n = some c ∧ Holds size c (Lib.strncpy src n) ∧ c n = 0 := by
  obtain ⟨c, hc, hholds, hrest⟩ := (holds_ofList (zero_notMem_cstr src)).fill hroom hend
  exact ⟨c, hc, hholds, by rw [hrest n (Int.le_refl _), hend]⟩

theorem memcpy_timeStr (a : Bytes) (t : Time) :
    ∃ c, CArray.memcpy 12 a 0 (timeStr t ++ [0]) = some c ∧ Holds 12 c (timeStr t) := by
  obtain ⟨h0, hlen⟩ := timeStr_ascii t
  have hroom : (0 : Int) + ((timeStr t ++ [0]).length : Nat) ≤ 12 := by
    rw [List.length_append, hlen]
    decide
  refine ⟨_, if_pos ⟨Int.le_refl 0, hroom⟩, h0, by rw [hlen]; decide, fun k hk => ?_⟩
  rw [List.length_append, hlen, List.length_singleton] at hroom
  rw [if_pos (by
    rw [List.length_append, List.length_singleton]
    omega), Int.sub_zero, Int.toNat_natCast]
  by_cases hlt : k < (timeStr t).length
  · rw [List.getD_append _ _ _ _ hlt]
  · have hlast : k = (timeStr t).length := by omega
    rw [hlast, List.getD_append_right _ _ _ _ le_rfl, Nat.sub_self,
      List.getD_eq_default _ _ le_rfl]
    rfl

theorem shift_shows {t : Transcript} {log : List Entry} (h : t.Shows log) :
    Latest (CHAT_MAX_MSG_HISTORY - 1) MessageCell.Shows t.shift.history t.shift.historyCount log ∧
      ∀ k, (t.shift.history k).Ended := by
  rw [Transcript.shift]
  split
  · rename_i hfull
    dsimp only
    rw [Libstr.copyUp_eq _ (Nat.zero_le 1)]
    refine ⟨h.latest.slide hfull (by decide), fun k => ?_⟩
    rw [copied]
    split
    · exact h.ended _
    · exact h.ended k
  · rename_i hroom
    exact ⟨h.latest.room (by omega), h.ended⟩

theorem append_shows {t : Transcript} {log : List Entry} (h : t.Shows log) (a : Append) :
    ∃ t', t.append a = some t' ∧ t'.Shows (log ++ [a.entry]) := by
  obtain ⟨hlatest, hended⟩ := shift_shows h
  have hold := hended t.shift.historyCount
  obtain ⟨nick, hnick, hnickHolds, hnickEnd⟩ := strncpyFrom_spec CHAT_MAX_NICK_LEN
    (a.sender.getD (ascii "System")) (by decide) hold.senderNick
  obtain ⟨text, htext, htextHolds, htextEnd⟩ := strncpyFrom_spec CHAT_MAX_LINE_LEN
    (a.text.getD []) (by decide) hold.text
  obtain ⟨time, htime, htimeHolds⟩ :=
    memcpy_timeStr (t.shift.history t.shift.historyCount).timestamp a.time
  refine ⟨_, by rw [Transcript.append, hnick, Option.bind_eq_bind, Option.bind_some, htext,
    Option.bind_some, htime]; rfl, ?_, fun k => ?_⟩
  · refine hlatest.push (by decide) (fun k hk => ?_) ?_
    · exact Function.update_of_ne (by omega) _ _
    · dsimp only
      rw [Function.update_self]
      exact ⟨hnickHolds, htimeHolds, htextHolds, rfl, rfl⟩
  · dsimp only
    by_cases hk : k = t.shift.historyCount
    · rw [hk, Function.update_self]
      exact ⟨hnickEnd, htextEnd⟩
    · rw [Function.update_of_ne hk]
      exact hended k

-- The entry and the call without the time of day
def Entry.message (e : Entry) : Message := ⟨e.senderNick, e.text, e.type, e.color⟩

def Append.message (a : Append) : Message :=
  ⟨a.sender.getD (ascii "System"), a.text.getD [], a.type, a.color⟩

-- The history of a context is the transcript's, entry by entry.
theorem append_history {ctx : WndContext} {log : List Entry}
    (h : ctx.history = (log.map Entry.message).rtake CHAT_MAX_MSG_HISTORY) (a : Append) :
    (ctx.append a.message).history =
      ((log ++ [a.entry]).map Entry.message).rtake CHAT_MAX_MSG_HISTORY := by
  rw [List.map_append, List.map_singleton, ← rtake_push (by decide), ← h, WndContext.append]
  simp only [ge_iff_le, ← not_lt, ite_not]
  rfl

theorem zero_shows : Transcript.zero.Shows [] := ⟨.nil _, fun _ => ⟨rfl, rfl⟩⟩

theorem appends_show {t : Transcript} {log : List Entry} (h : t.Shows log)
    (appends : List Append) : ∃ t', appends.foldlM Transcript.append t = some t' ∧
      t'.Shows (log ++ appends.map Append.entry) := by
  induction appends generalizing t log with
  | nil => exact ⟨t, rfl, by simpa using h⟩
  | cons a appends ih =>
      obtain ⟨t₁, ht, hshows⟩ := append_shows h a
      obtain ⟨t₂, hrun, hshows₂⟩ := ih hshows
      rw [List.append_assoc] at hshows₂
      refine ⟨t₂, ?_, hshows₂⟩
      rw [List.foldlM_cons, ht, Option.bind_eq_bind, Option.bind_some, hrun]

end BTron.Chat
