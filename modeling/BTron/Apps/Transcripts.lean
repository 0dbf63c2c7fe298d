import BTron.Chat.Transcript
import BTron.Gterm.Scrollback

namespace BTron.Apps

open Lib Lib.CArray

-- The terminal keeps the last pieces of all texts with their colours, a chat window its last
-- messages, both as strings with a NUL in rows that are there.
theorem transcripts_latest :
    (∀ (lines : Nat → Bytes) (lineCols : Nat → Nat) (calls : List Gterm.Scrollback.Call),
      ∃ st, calls.foldlM (fun st c => Gterm.Scrollback.gtermAppendLine c.junk st c.text c.col)
          ⟨lines, lineCols, 0⟩ = some st ∧
        st.totalLines = min (calls.flatMap Gterm.Scrollback.Call.pieces).length 300 ∧
        ∀ k piece col, ((calls.flatMap Gterm.Scrollback.Call.pieces).rtake 300)[k]? =
          some (piece, col) → Holds 257 (st.lines k) piece ∧ st.lineCols k = col) ∧
    ∀ appends : List Chat.Append, ∃ t, appends.foldlM Chat.Transcript.append .zero = some t ∧
      t.historyCount = min appends.length Chat.CHAT_MAX_MSG_HISTORY ∧
      ∀ k e, ((appends.map Chat.Append.entry).rtake Chat.CHAT_MAX_MSG_HISTORY)[k]? = some e →
        (t.history k).Shows e := by
  constructor
  · intro lines lineCols calls
    have hempty : Gterm.Scrollback.Shows ⟨lines, lineCols, 0⟩ [] := Latest.nil _
    obtain ⟨st, hrun, hshows⟩ := Gterm.Scrollback.calls_show hempty calls
    rw [List.nil_append] at hshows
    refine ⟨st, hrun, ?_, fun k piece col hk => hshows.cell k (piece, col) hk⟩
    rw [hshows.count, length_rtake]
    rfl
  · intro appends
    obtain ⟨t, hrun, hshows⟩ := Chat.appends_show Chat.zero_shows appends
    rw [List.nil_append] at hshows
    refine ⟨t, hrun, ?_, hshows.latest.cell⟩
    rw [hshows.latest.count, length_rtake, List.length_map]

end BTron.Apps
