import BTron.Png

namespace BTron.Png

open Lib Graphics Relation

theorem word_lt (b : List UB) (i : Nat) : word b i < 4294967296 := by
  have hbyte : ∀ (j k : Nat), k ≤ 24 → (b.getD j 0).toNat <<< k < 2 ^ 32 := by
    intro j k hk
    have hlt := UInt8.toNat_lt (b.getD j 0)
    have hle : 2 ^ k ≤ 2 ^ 24 := Nat.pow_le_pow_right (by decide) hk
    rw [Nat.shiftLeft_eq]
    calc (b.getD j 0).toNat * 2 ^ k ≤ 255 * 2 ^ 24 := Nat.mul_le_mul (by omega) hle
      _ < 2 ^ 32 := by decide
  have hlast : (b.getD (i + 3) 0).toNat < 2 ^ 32 := by
    have hlt := UInt8.toNat_lt (b.getD (i + 3) 0)
    omega
  exact Nat.or_lt_two_pow (Nat.or_lt_two_pow (Nat.or_lt_two_pow (hbyte _ _ (by decide))
    (hbyte _ _ (by decide))) (hbyte _ _ (by decide))) hlast

-- The header of an IDAT chunk of this length is next.
def Chunks.AtIdat (s : Chunks) (clen : Nat) : Prop :=
  (s.file.take 8).length = 8 ∧ (s.file.take 8).drop 4 = idatType ∧ clen = word (s.file.take 8) 0

-- The chunk does not wrap the sum around, or what is left of the file has room.
def Chunks.Gathers (s : Chunks) (clen : Nat) : Prop :=
  s.idat.length + clen < 4294967296 ∨ s.idat.length + (s.file.drop 8).length ≤ maxPngIdat

theorem readIdat_fault {s : Chunks} (hs : s.idat.length ≤ maxPngIdat) {clen : Nat}
    (hclen : clen < 4294967296) :
    s.readIdat (s.file.drop 8) clen = .fault ↔ ¬s.Gathers clen := by
  have hmax : maxPngIdat = 4194304 := rfl
  unfold Chunks.readIdat Chunks.Gathers
  dsimp only
  rw [List.length_take, List.length_drop]
  by_cases hwrap : s.idat.length + clen < 4294967296
  · rw [w32_of_lt hwrap]
    split
    · rw [if_pos (by omega)]
      simp [hwrap]
    · simp [hwrap]
  · have hw : w32 (s.idat.length + clen) ≤ maxPngIdat := by
      unfold w32
      omega
    rw [if_pos hw]
    split
    · simp
      omega
    · simp
      omega

-- What a turn can do.
theorem pngTurn_cases (s : Chunks) :
    (∃ clen, s.AtIdat clen ∧ clen < 4294967296 ∧
      pngTurn s = s.readIdat (s.file.drop 8) clen) ∨
    (¬∃ clen, s.AtIdat clen) ∧ (pngTurn s = .leave ∨
      ∃ t, pngTurn s = .go t ∧ t.idat = s.idat ∧ t.file.length < s.file.length) := by
  unfold pngTurn
  dsimp only
  by_cases hlen : (s.file.take 8).length = 8
  · have hlong : 8 ≤ s.file.length := by
      rw [List.length_take] at hlen
      omega
    rw [if_neg (fun hne => hne hlen)]
    by_cases hidat : (s.file.take 8).drop 4 = idatType
    · left
      refine ⟨_, ⟨hlen, hidat, rfl⟩, word_lt _ _, ?_⟩
      rw [hidat, if_neg (by decide), if_pos rfl]
    · right
      refine ⟨fun ⟨_, hat⟩ => hidat hat.2.1, ?_⟩
      split
      · unfold Chunks.readIhdr
        dsimp only
        split
        · exact .inl rfl
        · right
          refine ⟨_, rfl, rfl, ?_⟩
          dsimp only
          rw [List.length_drop, List.length_drop, List.length_drop]
          omega
      · split
        · exact .inl rfl
        · right
          refine ⟨_, rfl, rfl, ?_⟩
          dsimp only
          rw [List.length_drop, List.length_drop]
          omega
  · right
    rw [if_pos hlen]
    exact ⟨fun ⟨_, hat⟩ => hlen hat.1, .inl rfl⟩

theorem readIdat_go {s t : Chunks} {clen : Nat} (hat : s.AtIdat clen)
    (h : s.readIdat (s.file.drop 8) clen = .go t) (hs : s.idat.length ≤ maxPngIdat) :
    t.idat.length ≤ maxPngIdat ∧ t.file.length < s.file.length := by
  have hlong := hat.1
  rw [List.length_take] at hlong
  unfold Chunks.readIdat at h
  dsimp only at h
  split at h
  · split at h
    · rename_i hfit
      cases h
      dsimp only
      refine ⟨?_, by simp only [List.length_drop]; omega⟩
      split
      · rw [List.length_append]
        exact hfit
      · exact hs
    · cases h
  · cases h
    exact ⟨hs, by simp only [List.length_drop]; omega⟩

-- Every turn but the last takes bytes of the file, and the chunks gathered fit their buffer.
theorem pngStep_spec {s t : Chunks} (hs : s.idat.length ≤ maxPngIdat) (h : pngStep s = some t) :
    t.idat.length ≤ maxPngIdat ∧ t.file.length < s.file.length := by
  have hgo : pngTurn s = .go t := Outcome.next_eq_some.mp h
  obtain ⟨clen, hat, _, hturn⟩ | ⟨_, hleave | ⟨t', hturn, hidat, hlen⟩⟩ := pngTurn_cases s
  · exact readIdat_go hat (hturn.symm.trans hgo) hs
  · cases hleave.symm.trans hgo
  · cases hturn.symm.trans hgo
    exact ⟨hidat ▸ hs, hlen⟩

theorem pngTurn_fault {s : Chunks} (hs : s.idat.length ≤ maxPngIdat) :
    pngTurn s ≠ .fault ↔ ∀ clen, s.AtIdat clen → s.Gathers clen := by
  obtain ⟨clen, hat, hlt, hturn⟩ | ⟨hnone, hother⟩ := pngTurn_cases s
  · rw [hturn, ne_eq, readIdat_fault hs hlt, not_not]
    constructor
    · rintro h clen' hat'
      rw [hat'.2.2, ← hat.2.2]
      exact h
    · exact fun h => h clen hat
  · have hno : pngTurn s ≠ .fault := by
      intro hfault
      obtain hleave | ⟨t, hgo, _⟩ := hother
      · cases hleave.symm.trans hfault
      · cases hgo.symm.trans hfault
    exact ⟨fun _ clen hat => absurd ⟨clen, hat⟩ hnone, fun _ => hno⟩

end BTron.Png
