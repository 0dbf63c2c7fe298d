import BTron.Gif.Strings
import BTron.Gif.Turns
import BTron.Lib.Bits

namespace BTron.Gif

open Lib Bits

-- The sub-blocks of the data, each behind its length.
def frame (blocks : List (List UB)) : List UB := blocks.flatMap fun b => UInt8.ofNat b.length :: b

-- The bits left are those of the number, `n` of them, the lowest bit first.
def BitSource.Holds (s : BitSource) (v n : Nat) : Prop :=
  ∃ blocks tail, (∀ b ∈ blocks, b ≠ [] ∧ b.length ≤ 255) ∧ s.file = frame blocks ++ 0 :: tail ∧
    s.bitBuf < 2 ^ s.bitCount ∧
    v = s.bitBuf + 2 ^ s.bitCount * leValue (s.subBuf ++ blocks.flatten) ∧
    n = s.bitCount + 8 * (s.subBuf ++ blocks.flatten).length

-- A byte of the number is next where bits are left.
theorem nextByte_holds {s : BitSource} {v n : Nat} (h : s.Holds v n) (hbits : s.bitCount < n) :
    ∃ b t, s.nextByte = some (b, t) ∧
      BitSource.Holds { t with
        bitBuf := s.bitBuf ||| b.toNat <<< s.bitCount
        bitCount := s.bitCount + 8 } v n := by
  obtain ⟨blocks, tail, hblocks, hfile, hbuf, hv, hn⟩ := h
  -- the byte goes from the bottom of the bytes to the top of the buffer
  have hmove : ∀ (b : UB) (bytes : List UB), b :: bytes = s.subBuf ++ blocks.flatten →
      s.bitBuf ||| b.toNat <<< s.bitCount < 2 ^ (s.bitCount + 8) ∧
      v = (s.bitBuf ||| b.toNat <<< s.bitCount) + 2 ^ (s.bitCount + 8) * leValue bytes ∧
      n = s.bitCount + 8 + 8 * bytes.length := by
    intro b bytes hbytes
    rw [← hbytes, leValue_cons] at hv
    rw [← hbytes, List.length_cons] at hn
    have hor : s.bitBuf ||| b.toNat <<< s.bitCount = b.toNat * 2 ^ s.bitCount + s.bitBuf := by
      rw [Nat.or_comm]
      exact or_eq_add _ _ hbuf
    have hb := UInt8.toNat_lt b
    rw [hor, Nat.pow_add]
    refine ⟨?_, ?_, by omega⟩
    · have hle : (b.toNat + 1) * 2 ^ s.bitCount ≤ 256 * 2 ^ s.bitCount :=
        Nat.mul_le_mul_right _ hb
      rw [Nat.succ_mul] at hle
      omega
    · rw [hv, Nat.mul_add, ← Nat.mul_assoc, Nat.mul_comm _ b.toNat, ← Nat.add_assoc,
        Nat.add_comm s.bitBuf]
  cases hsub : s.subBuf with
  | cons b subBuf =>
      obtain ⟨hlt, hval, hlen⟩ := hmove b (subBuf ++ blocks.flatten) (by rw [hsub]; rfl)
      refine ⟨b, { s with subBuf := subBuf }, ?_, blocks, tail, hblocks, hfile, hlt, hval, hlen⟩
      simp [BitSource.nextByte, hsub]
  | nil =>
      cases blocks with
      | nil =>
          simp [hsub] at hn
          omega
      | cons block blocks =>
          rw [List.forall_mem_cons] at hblocks
          obtain ⟨⟨hne, hle⟩, hblocks⟩ := hblocks
          obtain ⟨b, subBuf, rfl⟩ := List.exists_cons_of_ne_nil hne
          obtain ⟨hlt, hval, hlen⟩ := hmove b (subBuf ++ blocks.flatten) (by simp [hsub])
          have hcount : (UInt8.ofNat (b :: subBuf).length).toNat = (b :: subBuf).length :=
            UInt8.toNat_ofNat_of_lt' (by simp [UInt8.size]; simp at hle; omega)
          refine ⟨b, { s with file := frame blocks ++ 0 :: tail, subBuf := subBuf }, ?_, blocks,
            tail, hblocks, rfl, hlt, hval, hlen⟩
          have hfile' : s.file = UInt8.ofNat (b :: subBuf).length ::
              ((b :: subBuf) ++ (frame blocks ++ 0 :: tail)) := by
            rw [hfile, frame, List.flatMap_cons]
            simp [frame]
          unfold BitSource.nextByte
          rw [hsub, hfile']
          dsimp only
          rw [hcount, if_neg (by simp), List.take_left, List.drop_left]

theorem fill_holds {codeSize k v n : Nat} {s : BitSource} (h : s.Holds v n) (hn : codeSize ≤ n)
    (hk : codeSize ≤ s.bitCount + 8 * k) :
    (s.fill codeSize k).Holds v n ∧ codeSize ≤ (s.fill codeSize k).bitCount := by
  induction k generalizing s with
  | zero => exact ⟨h, hk⟩
  | succ k ih =>
      unfold BitSource.fill
      split
      · rename_i hfew
        obtain ⟨b, t, hnext, ht⟩ := nextByte_holds h (by omega)
        rw [hnext]
        exact ih ht (by dsimp only; omega)
      · exact ⟨h, by omega⟩

theorem getCode_holds {codeSize v n : Nat} {s : BitSource} (h : s.Holds v n) (hn : codeSize ≤ n) :
    ∃ t, s.getCode codeSize = some (v % 2 ^ codeSize, t) ∧
      t.Holds (v / 2 ^ codeSize) (n - codeSize) := by
  obtain ⟨hholds, hbits⟩ := fill_holds (k := codeSize) h hn (by omega)
  simp only [BitSource.getCode]
  rw [if_neg (by omega)]
  obtain ⟨blocks, tail, hblocks, hfile, hbuf, hv, hlen⟩ := hholds
  obtain ⟨more, hmore⟩ : ∃ more, (s.fill codeSize codeSize).bitCount = codeSize + more :=
    ⟨_, (Nat.add_sub_cancel' hbits).symm⟩
  rw [hmore, Nat.pow_add] at hbuf hv
  rw [hmore] at hlen
  refine ⟨_, congrArg some (Prod.ext ?_ rfl), blocks, tail, hblocks, hfile, ?_, ?_, ?_⟩
  · dsimp only
    rw [Nat.one_shiftLeft, Nat.and_two_pow_sub_one_eq_mod, hv, Nat.mul_assoc,
      Nat.add_mul_mod_self_left]
  · dsimp only
    rw [Nat.shiftRight_eq_div_pow, hmore, Nat.add_sub_cancel_left]
    exact Nat.div_lt_of_lt_mul hbuf
  · dsimp only
    rw [hv, Nat.shiftRight_eq_div_pow, hmore, Nat.add_sub_cancel_left, Nat.mul_assoc,
      Nat.add_mul_div_left _ _ (Nat.two_pow_pos _)]
  · dsimp only
    omega

-- The bits left are the codes, and zeros where the last byte is filled up.
def BitSource.Codes (s : BitSource) (codes : List (Nat × Nat)) : Prop :=
  ∃ n, s.Holds (packValue codes) n ∧ packLength codes ≤ n

theorem getCode_codes {c w : Nat} {codes : List (Nat × Nat)} {s : BitSource} (hc : c < 2 ^ w)
    (h : s.Codes ((c, w) :: codes)) : ∃ t, s.getCode w = some (c, t) ∧ t.Codes codes := by
  obtain ⟨n, hholds, hn⟩ := h
  have hsum : packLength ((c, w) :: codes) = w + packLength codes := by simp [packLength]
  obtain ⟨t, ht, hrest⟩ := getCode_holds hholds (show w ≤ n by omega)
  rw [packValue_mod hc] at ht
  rw [packValue_div hc] at hrest
  exact ⟨t, ht, n - w, hrest, by omega⟩

theorem start_codes {codes : List (Nat × Nat)} (hcodes : ∀ f ∈ codes, f.1 < 2 ^ f.2)
    {blocks : List (List UB)} (hblocks : ∀ b ∈ blocks, b ≠ [] ∧ b.length ≤ 255)
    (hdata : blocks.flatten = packBytes codes) (tail : List UB) :
    BitSource.Codes ⟨frame blocks ++ 0 :: tail, [], 0, 0⟩ codes := by
  obtain ⟨hvalue, hlen⟩ := packBytes_spec hcodes
  refine ⟨8 * (packBytes codes).length, ⟨blocks, tail, hblocks, rfl, Nat.one_pos, ?_, ?_⟩, hlen⟩
  · simp [hdata, hvalue]
  · simp [hdata]

end BTron.Gif

namespace BTron.Gif

open Lib Lzw

theorem clearCode_eq (p : Params) : p.clearCode = clearCode p.minCodeSize := Nat.one_shiftLeft _

theorem eoiCode_eq (p : Params) : p.eoiCode = endCode p.minCodeSize :=
  congrArg (· + 1) (clearCode_eq p)

theorem firstCode_eq (p : Params) : p.eoiCode + 1 = firstCode p.minCodeSize :=
  congrArg (· + 1) (eoiCode_eq p)

-- The entries of the decoder are the strings of the table.
structure Decoder.Entries (p : Params) (g : Decoder) (table : List (List UB)) : Prop where
  palette : ∀ c < p.clearCode, g.gifSuffix c = UInt8.ofNat c
  nextCode : g.nextCode = firstCode p.minCodeSize + table.length
  room : g.nextCode ≤ maxLzwDict
  spells : ∀ i (h : i < table.length), Spells p.clearCode g.nextCode g.gifPrefix g.gifSuffix
    (firstCode p.minCodeSize + i) table[i]

-- The decoder in front of the code of `w`, the encoder having the table. But for the first code
-- behind a clear, the last entry of the encoder is the one that the decoder makes next: the
-- previous string and the first character of this one.
inductive Decoder.Sync (p : Params) (g : Decoder) : List (List UB) → List UB → Prop
  | fresh {w : List UB} : g.Entries p [] → g.oldCode = none → g.codeSize = p.minCodeSize + 1 →
      Sync p g [] w
  | behind {table : List (List UB)} {v w : List UB} {old : Nat} {b : UB} : g.Entries p table →
      g.nextCode < maxLzwDict → g.oldCode = some old →
      Spells p.clearCode g.nextCode g.gifPrefix g.gifSuffix old v →
      v.head? = some g.firstChar → w.head? = some b → Sync p g (table ++ [v ++ [b]]) w

-- The decoder behind the code of `w`.
structure Decoder.After (p : Params) (g : Decoder) (table : List (List UB)) (w : List UB) :
    Prop where
  entries : g.Entries p table
  old : ∃ old, g.oldCode = some old ∧ Spells p.clearCode g.nextCode g.gifPrefix g.gifSuffix old w
  first : w.head? = some g.firstChar

theorem Decoder.After.sync {p : Params} {g : Decoder} {table : List (List UB)} {w : List UB}
    (h : g.After p table w) (hroom : firstCode p.minCodeSize + table.length < tableSize) (b : UB) :
    g.Sync p (table ++ [w ++ [b]]) [b] := by
  obtain ⟨old, hold, hspells⟩ := h.old
  exact .behind h.entries (by rw [h.entries.nextCode]; exact hroom) hold hspells h.first rfl

theorem clear_sync {p : Params} {g : Decoder}
    (hpalette : ∀ c < p.clearCode, g.gifSuffix c = UInt8.ofNat c) (w : List UB) :
    (g.clear p).Sync p [] w := by
  have hle := clearCode_le p
  have heoi : p.eoiCode = p.clearCode + 1 := rfl
  have hdict : maxLzwDict = 4096 := rfl
  refine .fresh ⟨hpalette, firstCode_eq p, ?_, fun i hi => by cases hi⟩ rfl rfl
  simp only [Decoder.clear]
  omega

variable {p : Params} {g : Decoder} {table : List (List UB)} {w : List UB}

-- A string of the table is that of its code.
theorem Decoder.Entries.known (h : g.Entries p table)
    (hpalette : ∀ b ∈ w, b.toNat < 2 ^ p.minCodeSize) (hw : Known table w) :
    Spells p.clearCode g.nextCode g.gifPrefix g.gifSuffix (code p.minCodeSize table w) w := by
  unfold code
  split
  · rename_i b
    have hb : b.toNat < p.clearCode := by
      rw [clearCode_eq]
      exact hpalette b (List.mem_singleton_self b)
    have hsuffix := h.palette b.toNat hb
    rw [UInt8.ofNat_toNat] at hsuffix
    have hspells : Spells p.clearCode g.nextCode g.gifPrefix g.gifSuffix b.toNat
      [g.gifSuffix b.toNat] := .palette hb
    rwa [hsuffix] at hspells
  · rename_i hone
    obtain ⟨b, hb⟩ | hmem := hw
    · exact absurd hb (hone b)
    · have hlt := List.idxOf_lt_length_of_mem hmem
      have hspells := h.spells (table.idxOf w) hlt
      rwa [List.getElem_idxOf] at hspells

theorem clear_le_next (h : g.Entries p table) : p.clearCode + 2 ≤ g.nextCode := by
  rw [h.nextCode, clearCode_eq]
  exact Nat.le_add_right _ _

-- The code of a string in the decoder's own table.
theorem unwind_known (h : g.Entries p table) (hstack : g.gifStack = [])
    (hpalette : ∀ b ∈ w, b.toNat < 2 ^ p.minCodeSize) (hw : Known table w) :
    ∃ b rest, w = b :: rest ∧ g.unwind p (code p.minCodeSize table w) = some (b, w) := by
  have hlt := code_lt hpalette hw
  rw [← h.nextCode] at hlt
  obtain ⟨b, rest, hb, hspell⟩ := (h.known hpalette hw).spell h.room [] (by simp)
  rw [List.append_nil] at hspell
  exact ⟨b, rest, hb, by rw [Decoder.unwind, if_neg (by omega), hstack, hspell]⟩

-- The string of the entry that the decoder makes next.
theorem unwind_next {v : List UB} {old : Nat} (h : g.Entries p table) (hstack : g.gifStack = [])
    (hold : g.oldCode = some old)
    (hspells : Spells p.clearCode g.nextCode g.gifPrefix g.gifSuffix old v)
    (hfirst : v.head? = some g.firstChar) :
    ∃ rest, v = g.firstChar :: rest ∧
      g.unwind p g.nextCode = some (g.firstChar, v ++ [g.firstChar]) := by
  obtain ⟨b, rest, hb, hspell⟩ := hspells.spell h.room [g.firstChar] (by simp)
  rw [hb] at hfirst
  obtain rfl := Option.some.inj hfirst
  refine ⟨rest, hb, ?_⟩
  rw [Decoder.unwind, if_pos le_rfl, hstack, push_eq_some (by decide), hold]
  exact hspell

theorem code_append_of_known {x : List UB} (h : Known table w) :
    code p.minCodeSize (table ++ [x]) w = code p.minCodeSize table w := by
  unfold code
  split
  · rfl
  · rename_i hone
    obtain ⟨b, hb⟩ | hmem := h
    · exact absurd hb (hone b)
    · rw [List.idxOf_append_of_mem hmem]

theorem code_append_new {v : List UB} {b : UB} (hv : v ≠ []) (h : v ++ [b] ∉ table) :
    code p.minCodeSize (table ++ [v ++ [b]]) (v ++ [b]) =
      firstCode p.minCodeSize + table.length := by
  obtain ⟨a, rest, rfl⟩ := List.exists_cons_of_ne_nil hv
  unfold code
  split
  · rename_i hone
    simp at hone
  · rw [List.idxOf_append_of_notMem h, List.idxOf_cons_self, Nat.add_zero]

theorem unwind_sync (hsync : g.Sync p table w) (hstack : g.gifStack = [])
    (hpalette : ∀ b ∈ w, b.toNat < 2 ^ p.minCodeSize) (hw : Known table w) :
    ∃ b rest, w = b :: rest ∧ g.unwind p (code p.minCodeSize table w) = some (b, w) := by
  cases hsync with
  | fresh hentries _ _ => exact unwind_known hentries hstack hpalette hw
  | @behind table v _ old b hentries _ hold hspells hfirst hhead =>
      by_cases hknown : Known table w
      · rw [code_append_of_known hknown]
        exact unwind_known hentries hstack hpalette hknown
      · obtain hone | hmem := hw
        · exact absurd (.inl hone) hknown
        · -- the string of the encoder's last entry, which the decoder does not have yet
          have hnot : w ∉ table := fun hin => hknown (.inr hin)
          obtain rfl : w = v ++ [b] := by simpa [hnot] using hmem
          obtain ⟨rest, hv, hunwind⟩ := unwind_next hentries hstack hold hspells hfirst
          have hb : g.firstChar = b := by
            rw [hv] at hhead
            exact Option.some.inj hhead
          rw [code_append_new (by rw [hv]; simp) hnot, ← hentries.nextCode, hunwind, hb]
          exact ⟨b, rest ++ [b], by rw [hv, hb]; rfl, rfl⟩

end BTron.Gif
