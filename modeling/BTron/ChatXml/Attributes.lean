import BTron.ChatXml.Stanza

namespace BTron.ChatXml

open Lib

-- A value that the parser reads to its end.
def Clean (v : List UB) : Prop := ∀ c ∈ v, isEnd c = false

theorem Clean.notMem {v : List UB} (h : Clean v) : 0x22 ∉ v := fun hmem =>
  absurd (h 0x22 hmem) (by decide)

-- What is taken of a value in its quotes.
theorem extractAttrVal_eq {xml name v b : List UB} (maxLen : Nat) (hname : IsName name)
    (h : (xml.dropInfix? (name ++ [0x3D] ++ [0x22])).map Prod.snd = some (v ++ 0x22 :: b)) :
    extractAttrVal xml name maxLen = (v.takeWhile (!isEnd ·)).take (maxLen - 1) := by
  have hlen := hname.length
  have hneedle : ((name ++ [0x3D, 0x22]).take 63 : List UB) = name ++ [0x3D] ++ [0x22] := by
    rw [List.take_of_length_le (by simp; omega)]
    simp
  obtain ⟨found, hfound, hsnd⟩ := Option.map_eq_some_iff.mp h
  have hval : (v ++ 0x22 :: b).takeWhile (!isEnd ·) = v.takeWhile (!isEnd ·) := by
    rw [List.takeWhile_append]
    split
    · rename_i hfull
      have hquote : (!isEnd (0x22 : UB)) = false := by decide
      rw [(List.takeWhile_prefix _).eq_of_length hfull, List.takeWhile_cons, hquote]
      exact List.append_nil v
    · rfl
  rw [extractAttrVal]
  simp only [hneedle, hfound, Option.some_or, hsnd, hval]
  rw [if_neg]
  have hle := (List.takeWhile_sublist (l := v) (!isEnd ·)).length_le
  rw [List.length_append, List.length_cons]
  omega

theorem take_clean_iff {v : List UB} {maxLen : Nat} (hlen : v.length < maxLen) :
    (v.takeWhile (!isEnd ·)).take (maxLen - 1) = v ↔ Clean v := by
  have hle := (List.takeWhile_sublist (l := v) (!isEnd ·)).length_le
  rw [List.take_of_length_le (by omega), List.takeWhile_eq_self_iff]
  simp [Clean]

-- Another text is read where the value before it takes the quote.
theorem take_gap_iff {g v : List UB} {maxLen : Nat} (hclean : Clean g) (hlen : g.length < maxLen) :
    (g.takeWhile (!isEnd ·)).take (maxLen - 1) = v ↔ v = g := by
  rw [(take_clean_iff hlen).mpr hclean]
  exact eq_comm

-- A stanza up to its second value: the pieces between the quotes.
def headed (root f t rest : List UB) : List UB :=
  (0x3C :: root ++ 0x20 :: (ascii "from" ++ [0x3D])) ++ 0x22 ::
    (f ++ 0x22 :: ((0x20 :: (ascii "to" ++ [0x3D])) ++ 0x22 :: (t ++ 0x22 :: rest)))

theorem stanza_headed (root f t : List UB) (attrs : List Attr) (t₁ x₁ t₂ x₂ : List UB) :
    stanza root (⟨ascii "from", f⟩ :: ⟨ascii "to", t⟩ :: attrs) t₁ x₁ t₂ x₂ =
      headed root f t (attrs.flatMap attrOf ++ ([0x3E] ++ (element t₁ x₁ ++ element t₂ x₂) ++
        closeTag root)) := by
  simp [stanza, headed, attrOf]

theorem extract_from {root f t rest : List UB}
    (hroot : root = ascii "message" ∨ root = ascii "presence")
    (hf : f.length < CHAT_MAX_JID_LEN) :
    extractAttrVal (headed root f t rest) (ascii "from") CHAT_MAX_JID_LEN = f ↔ Clean f := by
  rw [← take_clean_iff hf, headed]
  rw [extractAttrVal_eq CHAT_MAX_JID_LEN (isName_ascii (by decide)) (dropInfix_mark _ _ _ _)]
  · decide
  · obtain rfl | rfl := hroot <;> decide
  · obtain rfl | rfl := hroot <;> decide

-- What comes before the first value is passed by a search for another name.
theorem skip_root {root name b : List UB} (hroot : root = ascii "message" ∨ root = ascii "presence")
    (hname : name = ascii "to" ∨ name = ascii "type") :
    ((0x3C :: root ++ 0x20 :: (ascii "from" ++ [0x3D]) ++ 0x22 :: b).dropInfix?
        (name ++ [0x3D] ++ [0x22])).map Prod.snd =
      (b.dropInfix? (name ++ [0x3D] ++ [0x22])).map Prod.snd := by
  apply dropInfix_skip
  · obtain rfl | rfl := hname <;> decide
  · obtain rfl | rfl := hroot <;> decide
  · obtain rfl | rfl := hroot <;> obtain rfl | rfl := hname <;> decide

-- The text between the first two values stands where the first one ends like a name.
def TakesGap (name f : List UB) : Prop := name ++ [0x3D] <:+ f

theorem not_takesGap {name f : List UB} (hf : 0x3D ∉ f) : ¬TakesGap name f := fun h =>
  hf (h.subset (List.mem_append_right name List.mem_cons_self))

def gap : List UB := 0x20 :: (ascii "to" ++ [0x3D])

theorem find_gap {root name f t rest : List UB}
    (hroot : root = ascii "message" ∨ root = ascii "presence")
    (hname : name = ascii "to" ∨ name = ascii "type") (hf : Clean f) (htakes : TakesGap name f) :
    ((headed root f t rest).dropInfix? (name ++ [0x3D] ++ [0x22])).map Prod.snd =
      some (gap ++ 0x22 :: (t ++ 0x22 :: rest)) := by
  rw [headed, skip_root hroot hname]
  apply dropInfix_mark _ hf.notMem htakes
  obtain rfl | rfl := hname <;> decide

theorem extract_to {root f t rest : List UB}
    (hroot : root = ascii "message" ∨ root = ascii "presence") (hf : Clean f)
    (ht : t.length < CHAT_MAX_ROOM_LEN) :
    extractAttrVal (headed root f t rest) (ascii "to") CHAT_MAX_ROOM_LEN = t ↔
      Clean t ∧ (TakesGap (ascii "to") f → t = gap) := by
  have hgap : Clean gap := by
    rw [Clean]
    decide
  by_cases htakes : TakesGap (ascii "to") f
  · rw [extractAttrVal_eq CHAT_MAX_ROOM_LEN (isName_ascii (by decide))
      (find_gap hroot (Or.inl rfl) hf htakes), take_gap_iff hgap (by decide)]
    constructor
    · rintro rfl
      exact ⟨hgap, fun _ => rfl⟩
    · exact fun h => h.2 htakes
  · rw [← take_clean_iff ht, headed]
    rw [extractAttrVal_eq CHAT_MAX_ROOM_LEN (isName_ascii (by decide))]
    · exact ⟨fun h => ⟨h, fun htakes' => absurd htakes' htakes⟩, fun h => h.1⟩
    · rw [skip_root hroot (Or.inl rfl), dropInfix_skip (by decide) hf.notMem htakes]
      apply dropInfix_mark <;> decide

-- The text between the second value and the third.
def typeGap : List UB := 0x20 :: (ascii "type" ++ [0x3D])

theorem find_typeGap {root f t rest : List UB}
    (hroot : root = ascii "message" ∨ root = ascii "presence") (hf : Clean f) (ht : Clean t)
    (hpast : ¬TakesGap (ascii "type") f) (htakes : TakesGap (ascii "type") t) :
    ((headed root f t (typeGap ++ 0x22 :: rest)).dropInfix?
        (ascii "type" ++ [0x3D] ++ [0x22])).map Prod.snd = some (typeGap ++ 0x22 :: rest) := by
  rw [headed, skip_root hroot (Or.inr rfl), dropInfix_skip (by decide) hf.notMem hpast,
    dropInfix_skip (by decide) (by decide) (by decide)]
  exact dropInfix_mark (by decide) ht.notMem htakes _

theorem find_type {root f t b : List UB}
    (hroot : root = ascii "message" ∨ root = ascii "presence") (hf : Clean f) (ht : Clean t)
    (hpast : ¬TakesGap (ascii "type") f) (hpast' : ¬TakesGap (ascii "type") t) :
    ((headed root f t (typeGap ++ 0x22 :: b)).dropInfix?
        (ascii "type" ++ [0x3D] ++ [0x22])).map Prod.snd = some b := by
  rw [headed, skip_root hroot (Or.inr rfl), dropInfix_skip (by decide) hf.notMem hpast,
    dropInfix_skip (by decide) (by decide) (by decide),
    dropInfix_skip (by decide) ht.notMem hpast']
  apply dropInfix_mark <;> decide

-- The conditions on a third value.
structure TypeReads (f t v : List UB) : Prop where
  clean : Clean v
  first : TakesGap (ascii "type") f → v = gap
  second : ¬TakesGap (ascii "type") f → TakesGap (ascii "type") t → v = typeGap

theorem extract_type {root f t v rest : List UB}
    (hroot : root = ascii "message" ∨ root = ascii "presence") (hf : Clean f) (ht : Clean t)
    (hv : v.length < 16) :
    extractAttrVal (headed root f t (typeGap ++ 0x22 :: (v ++ 0x22 :: rest))) (ascii "type") 16 =
      v ↔ TypeReads f t v := by
  have hname : IsName (ascii "type") := isName_ascii (by decide)
  have hgap : Clean gap := by
    rw [Clean]
    decide
  have htype : Clean typeGap := by
    rw [Clean]
    decide
  by_cases hfirst : TakesGap (ascii "type") f
  · rw [extractAttrVal_eq 16 hname (find_gap hroot (Or.inr rfl) hf hfirst),
      take_gap_iff hgap (by decide)]
    constructor
    · rintro rfl
      exact ⟨hgap, fun _ => rfl, fun hpast => absurd hfirst hpast⟩
    · exact fun h => h.first hfirst
  · by_cases hsecond : TakesGap (ascii "type") t
    · rw [extractAttrVal_eq 16 hname (find_typeGap hroot hf ht hfirst hsecond),
        take_gap_iff htype (by decide)]
      constructor
      · rintro rfl
        exact ⟨htype, fun htakes => absurd htakes hfirst, fun _ _ => rfl⟩
      · exact fun h => h.second hfirst hsecond
    · rw [extractAttrVal_eq 16 hname (find_type hroot hf ht hfirst hsecond), take_clean_iff hv]
      constructor
      · exact fun hclean =>
          ⟨hclean, fun htakes => absurd htakes hfirst, fun _ htakes => absurd htakes hsecond⟩
      · exact fun h => h.clean

end BTron.ChatXml
