import BTron.Gif.Safety
import BTron.Lib.Lzw

namespace BTron.Gif

open Lib

-- The string of a code, whose prefixes down to the palette are all below the bound.
inductive Spells (clear bound : Nat) (gifPrefix : Nat → Nat) (gifSuffix : Nat → UB) :
    Nat → List UB → Prop
  | palette {c : Nat} : c < clear → Spells clear bound gifPrefix gifSuffix c [gifSuffix c]
  | entry {c : Nat} {w : List UB} : clear ≤ c → c < bound →
      Spells clear bound gifPrefix gifSuffix (gifPrefix c) w →
      Spells clear bound gifPrefix gifSuffix c (w ++ [gifSuffix c])

variable {clear bound : Nat} {gifPrefix : Nat → Nat} {gifSuffix : Nat → UB}

theorem Spells.leaves {c : Nat} {w : List UB} (h : Spells clear bound gifPrefix gifSuffix c w)
    (hbound : bound ≤ maxLzwDict) :
    ∃ n, w.length = n + 1 ∧ Leaves (Inside clear) gifPrefix n c := by
  induction h with
  | palette hc => exact ⟨0, rfl, fun hin => absurd hin.1 (by omega)⟩
  | entry hge hlt _ ih =>
      obtain ⟨n, hlen, hn⟩ := ih
      exact ⟨n + 1, by simp [hlen], ⟨hge, by omega⟩, hn⟩

-- The loop leaves the string without its first character on the stack.
theorem Spells.chain {c : Nat} {w : List UB} (h : Spells clear bound gifPrefix gifSuffix c w)
    (hbound : bound ≤ maxLzwDict) {room : Nat} (hroom : w.length ≤ room + 1) (stack : List UB) :
    ∃ root rest, Gif.chain clear gifPrefix gifSuffix room stack c = some (rest ++ stack, root) ∧
      root < clear ∧ w = gifSuffix root :: rest := by
  induction h generalizing room stack with
  | @palette c hc =>
      have hout : ¬(clear ≤ c ∧ c < maxLzwDict) := by omega
      refine ⟨c, [], ?_, hc, rfl⟩
      cases room <;> rw [Gif.chain, if_neg hout] <;> rfl
  | @entry c w hge hlt _ ih =>
      rw [List.length_append, List.length_singleton] at hroom
      obtain ⟨root, rest, hchain, hroot, hw⟩ :=
        ih (show w.length ≤ (room - 1) + 1 by omega) (gifSuffix c :: stack)
      have hpos : 0 < w.length := by rw [hw]; exact Nat.succ_pos _
      obtain ⟨room, rfl⟩ : ∃ r, room = r + 1 := ⟨room - 1, by omega⟩
      refine ⟨root, rest ++ [gifSuffix c], ?_, hroot, by rw [hw]; rfl⟩
      rw [Gif.chain, if_pos ⟨hge, by omega⟩]
      rw [Nat.add_sub_cancel] at hchain
      rw [hchain]
      simp

theorem Spells.spell {p : Params} {g : Decoder} {c : Nat} {w : List UB}
    (h : Spells p.clearCode bound g.gifPrefix g.gifSuffix c w) (hbound : bound ≤ maxLzwDict)
    (stack : List UB) (hstack : stack.length ≤ 1) :
    ∃ b rest, w = b :: rest ∧ g.spell p stack c = some (b, w ++ stack) := by
  obtain ⟨n, hlen, hn⟩ := h.leaves hbound
  have hentries := leaves_le_entries hn
  have hpos := clearCode_pos p
  have hle := clearCode_le p
  have hdict : maxLzwDict = 4096 := rfl
  obtain ⟨root, rest, hchain, hroot, hw⟩ :=
    h.chain hbound (show w.length ≤ (maxLzwDict + 1 - stack.length) + 1 by omega) stack
  have hrest : rest.length = n := by
    rw [hw, List.length_cons] at hlen
    omega
  refine ⟨g.gifSuffix root, rest, hw, ?_⟩
  simp only [Decoder.spell, hchain, Option.bind_eq_bind, Option.bind_some]
  rw [if_pos (by omega), push_eq_some (by rw [List.length_append]; omega), Option.bind_some, hw]
  rfl

-- Entries at and above the bound have no part in a string.
theorem Spells.frame {bound' : Nat} {gifPrefix' : Nat → Nat} {gifSuffix' : Nat → UB} {c : Nat}
    {w : List UB} (h : Spells clear bound gifPrefix gifSuffix c w) (hclear : clear ≤ bound)
    (hle : bound ≤ bound')
    (hsame : ∀ i, i < bound → gifPrefix' i = gifPrefix i ∧ gifSuffix' i = gifSuffix i) :
    Spells clear bound' gifPrefix' gifSuffix' c w := by
  induction h with
  | @palette c hc =>
      rw [← (hsame c (by omega)).2]
      exact .palette hc
  | @entry c w hge hlt _ ih =>
      obtain ⟨hpre, hsuf⟩ := hsame c hlt
      rw [← hsuf]
      refine .entry hge (by omega) ?_
      rw [hpre]
      exact ih

end BTron.Gif
