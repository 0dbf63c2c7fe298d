import BTron.ChatXml.Stanza

namespace BTron.ChatXml

open Lib

-- The words of tags are without the marks around them.
structure Plain (w : List UB) : Prop where
  left : 0x3C ∉ w
  right : 0x3E ∉ w

theorem IsName.plain {t : List UB} (h : IsName t) : Plain t :=
  ⟨h.notMem (by decide), h.notMem (by decide)⟩

theorem Plain.close {w : List UB} (h : Plain w) : Plain (0x2F :: w) := by
  constructor
  · rw [List.mem_cons, not_or]
    exact ⟨by decide, h.left⟩
  · rw [List.mem_cons, not_or]
    exact ⟨by decide, h.right⟩

theorem Plain.selfClose {w : List UB} (h : Plain w) : Plain (w ++ [0x2F]) := by
  constructor
  · rw [List.mem_append, List.mem_singleton, not_or]
    exact ⟨h.left, by decide⟩
  · rw [List.mem_append, List.mem_singleton, not_or]
    exact ⟨h.right, by decide⟩

theorem Plain.notMem_tail {w : List UB} (h : Plain w) : 0x3C ∉ w ++ [0x3E] := by
  rw [List.mem_append, List.mem_singleton, not_or]
  exact ⟨h.left, by decide⟩

theorem tag_splits {w h p s : List UB} (hw : Plain w) :
    h.dropInfix? (tag w) = some (p, s) ↔ Splits (tag w) h p s :=
  dropInfix_splits hw.notMem_tail

theorem exists_splits {w h : List UB} (hw : Plain w) (hoccurs : tag w <:+: h) :
    ∃ p s, Splits (tag w) h p s := by
  cases hfound : h.dropInfix? (tag w) with
  | none => exact absurd hoccurs (dropInfix_eq_none.mp hfound)
  | some found => exact ⟨found.1, found.2, (tag_splits hw).mp hfound⟩

theorem splits_unique {w h p s p' s' : List UB} (hw : Plain w) (hsplit : Splits (tag w) h p s)
    (hsplit' : Splits (tag w) h p' s') : p = p' ∧ s = s' := by
  rw [← tag_splits hw] at hsplit hsplit'
  rw [hsplit] at hsplit'
  exact Prod.mk.inj (Option.some.inj hsplit')

-- A search for a tag passes another tag.
theorem tag_free {n w b : List UB} (hn : Plain n) (hw : Plain w) (hne : n ≠ w) :
    Free (tag n) (tag w) b := by
  have hmark : ∀ {u : List UB}, Plain u → (0x3E : UB) ∉ [0x3C] ++ u := by
    intro u hu
    rw [List.mem_append, List.mem_singleton, not_or]
    exact ⟨by decide, hu.right⟩
  apply Free.of_last (hmark hn) (hmark hw)
  intro hsuffix
  obtain heq | hsuffix := List.suffix_cons_iff.mp hsuffix
  · exact hne (List.cons.inj heq).2
  · exact hw.left (hsuffix.subset List.mem_cons_self)

-- And a text without it, up to the tag that follows.
theorem text_free {n x b : List UB} (hn : Plain n) (hx : ¬tag n <:+: x)
    (hb : ∀ e ∈ b.head?, e = 0x3C) : Free (tag n) x b :=
  Free.of_head hn.notMem_tail hx hb

theorem head_tag {w b : List UB} : ∀ e ∈ (tag w ++ b).head?, e = 0x3C :=
  fun _ he => (Option.some.inj he).symm

theorem element_free {n w x b : List UB} (hn : Plain n) (hw : Plain w) (hopen : n ≠ w)
    (hclose : n ≠ 0x2F :: w) (hself : n ≠ w ++ [0x2F]) (hx : ¬tag n <:+: x) :
    Free (tag n) (element w x) b := by
  rw [element]
  split
  · exact tag_free hn hw.selfClose hself
  · exact (tag_free hn hw hopen).append
      ((text_free hn hx head_tag).append (tag_free hn hw.close hclose))

-- What is taken up to a closing tag.
def upTo (t : List UB) (maxLen : Nat) (b : List UB) : List UB :=
  match b.dropInfix? (closeTag t) with
  | none => []
  | some (text, _) => text.take (maxLen - 1)

section Reads

variable {t w x y e a b u r m q : List UB} {maxLen : Nat}

theorem extractTagCdata_eq (ht : IsName t) (xml : List UB) :
    extractTagCdata xml t maxLen =
      match xml.dropInfix? (tag t) with
      | none => []
      | some (_, start) => upTo t maxLen start := by
  have hlen := ht.length
  have hopen : (([0x3C] ++ t ++ [0x3E]).take 63 : List UB) = tag t :=
    List.take_of_length_le (by rw [← tag, tag_length]; omega)
  have hclose : (([0x3C, 0x2F] ++ t ++ [0x3E]).take 63 : List UB) = closeTag t :=
    List.take_of_length_le (by simp; omega)
  rw [extractTagCdata]
  simp only [hopen, hclose]
  rfl

theorem extract_skip (ht : IsName t) (hfree : Free (tag t) a b) :
    extractTagCdata (a ++ b) t maxLen = extractTagCdata b t maxLen := by
  rw [extractTagCdata_eq ht, extractTagCdata_eq ht, hfree.dropInfix]
  cases b.dropInfix? (tag t) with
  | none => rfl
  | some found => rfl

theorem extract_none (ht : IsName t) (hnone : ¬tag t <:+: b) : extractTagCdata b t maxLen = [] := by
  rw [extractTagCdata_eq ht, dropInfix_eq_none.mpr hnone]

theorem extract_tag (ht : IsName t) (b : List UB) :
    extractTagCdata (tag t ++ b) t maxLen = upTo t maxLen b := by
  rw [extractTagCdata_eq ht, dropInfix_self]

theorem extract_splits (ht : IsName t) (hsplit : Splits (tag t) x u r) (b : List UB) :
    extractTagCdata (x ++ b) t maxLen = upTo t maxLen (r ++ b) := by
  rw [extractTagCdata_eq ht, dropInfix_append ((tag_splits ht.plain).mpr hsplit)]

theorem upTo_splits (ht : IsName t) (hsplit : Splits (closeTag t) r m q) (b : List UB) :
    upTo t maxLen (r ++ b) = m.take (maxLen - 1) := by
  have hfound : r.dropInfix? (closeTag t) = some (m, q) := (tag_splits ht.plain.close).mpr hsplit
  rw [upTo, dropInfix_append hfound]

theorem upTo_close (hfree : Free (closeTag t) a (closeTag t ++ b)) :
    upTo t maxLen (a ++ (closeTag t ++ b)) = a.take (maxLen - 1) := by
  rw [upTo, hfree.found]

theorem upTo_none (hnone : ¬closeTag t <:+: b) : upTo t maxLen b = [] := by
  rw [upTo, dropInfix_eq_none.mpr hnone]

theorem IsName.ne_close (ht : IsName t) (w : List UB) : t ≠ 0x2F :: w := by
  rintro rfl
  exact ht.notMem (by decide) List.mem_cons_self

theorem IsName.ne_self (ht : IsName t) (w : List UB) : t ≠ w ++ [0x2F] := by
  rintro rfl
  exact ht.notMem (c := 0x2F) (by decide) (by simp)

theorem IsName.close_ne (hw : IsName w) (t : List UB) : 0x2F :: t ≠ w ++ [0x2F] := by
  intro heq
  cases w with
  | nil => exact hw.nonempty rfl
  | cons c w =>
      obtain ⟨rfl, -⟩ := List.cons.inj heq
      exact hw.notMem (by decide) List.mem_cons_self

theorem tag_infix_nil {n : List UB} : ¬tag n <:+: [] := by
  intro h
  cases List.infix_nil.mp h

theorem element_ne (hx : x ≠ []) (b : List UB) :
    element t x ++ b = tag t ++ (x ++ (closeTag t ++ b)) := by
  rw [element, if_neg hx, List.append_assoc, List.append_assoc]

theorem ne_nil_of_tag {n : List UB} (h : tag n <:+: x) : x ≠ [] := by
  rintro rfl
  exact tag_infix_nil h

-- A text is read where its own tag is found first.
theorem own_text (ht : IsName t) (hx : x ≠ []) (hlen : x.length < maxLen) (b : List UB) :
    extractTagCdata (element t x ++ b) t maxLen = x ↔ ¬closeTag t <:+: x := by
  rw [element_ne hx, extract_tag ht]
  by_cases hclose : closeTag t <:+: x
  · obtain ⟨m, q, hsplit⟩ := exists_splits ht.plain.close hclose
    rw [upTo_splits ht hsplit]
    refine ⟨fun heq => ?_, fun hnot => absurd hclose hnot⟩
    have hle := (List.take_sublist (maxLen - 1) m).length_le
    have hsum := congrArg List.length hsplit.1
    rw [heq] at hle
    rw [List.length_append, List.length_append, tag_length] at hsum
    omega
  · rw [upTo_close (text_free ht.plain.close hclose head_tag), List.take_of_length_le (by omega)]
    exact ⟨fun _ => hclose, fun _ => rfl⟩

-- The conditions on the first of two texts.
structure FirstReads (t x y : List UB) : Prop where
  ends : ¬closeTag t <:+: x
  absent : x = [] → ∀ u r m q, Splits (tag t) y u r → Splits (closeTag t) r m q → m = []

theorem extract_first (ht : IsName t) (hw : IsName w) (hne : t ≠ w) (hlen : x.length < maxLen)
    (hmax : 1 < maxLen) (hopen : ¬tag t <:+: e) (hclose : ¬closeTag t <:+: e) :
    extractTagCdata (element t x ++ (element w y ++ e)) t maxLen = x ↔ FirstReads t x y := by
  by_cases hempty : x = []
  · subst hempty
    have hself : Free (tag t) (element t []) (element w y ++ e) :=
      tag_free ht.plain ht.plain.selfClose (ht.ne_self t)
    rw [extract_skip ht hself]
    by_cases htag : tag t <:+: y
    · obtain ⟨u, r, hsplit⟩ := exists_splits ht.plain htag
      rw [element_ne (ne_nil_of_tag htag), extract_skip ht (tag_free ht.plain hw.plain hne),
        extract_splits ht hsplit]
      by_cases hinside : closeTag t <:+: r
      · obtain ⟨m, q, hsplit'⟩ := exists_splits ht.plain.close hinside
        rw [upTo_splits ht hsplit', List.take_eq_nil_iff]
        constructor
        · intro hm
          refine ⟨tag_infix_nil, fun _ u' r' m' q' hu hm' => ?_⟩
          obtain ⟨-, rfl⟩ := splits_unique ht.plain hsplit hu
          obtain ⟨rfl, -⟩ := splits_unique ht.plain.close hsplit' hm'
          exact hm.resolve_left (by omega)
        · exact fun h => Or.inr (h.absent rfl u r m q hsplit hsplit')
      · have hrest : Free (closeTag t) (r ++ closeTag w) e :=
          (text_free ht.plain.close hinside head_tag).append
            (tag_free ht.plain.close hw.plain.close fun h => hne (List.cons.inj h).2)
        rw [← List.append_assoc, upTo_none fun h => hclose (hrest.infix_iff.mp h)]
        refine ⟨fun _ => ⟨tag_infix_nil, fun _ u' r' m' q' hu hm' => ?_⟩, fun _ => rfl⟩
        obtain ⟨-, rfl⟩ := splits_unique ht.plain hsplit hu
        exact absurd hm'.isInfix hinside
    · have hother : Free (tag t) (element w y) e :=
        element_free ht.plain hw.plain hne (ht.ne_close w) (ht.ne_self w) htag
      rw [extract_skip ht hother, extract_none ht hopen]
      exact ⟨fun _ => ⟨tag_infix_nil, fun _ _ _ _ _ hu _ => absurd hu.isInfix htag⟩, fun _ => rfl⟩
  · rw [own_text ht hempty hlen]
    exact ⟨fun hends => ⟨hends, fun h => absurd h hempty⟩, FirstReads.ends⟩

-- The conditions on the second one.
structure SecondReads (t w : List UB) (maxLen : Nat) (x y : List UB) : Prop where
  ends : ¬tag w <:+: x → ¬closeTag w <:+: y
  closed : ∀ u r m q, Splits (tag w) x u r → Splits (closeTag w) r m q → y = m.take (maxLen - 1)
  unclosed : ∀ u r, Splits (tag w) x u r → ¬closeTag w <:+: r →
    y = [] ∨ y = (r ++ closeTag t ++ tag w ++ y).take (maxLen - 1)

-- A text that is read with what is before it.
theorem read_again {head : List UB} (hw : IsName w) (hhead : ∀ {b}, Free (closeTag w) head b)
    (hne : head ≠ []) (e : List UB) :
    upTo w maxLen (head ++ (y ++ (closeTag w ++ e))) = y ↔ y = (head ++ y).take (maxLen - 1) := by
  by_cases hinside : closeTag w <:+: y
  · obtain ⟨m, q, hsplit⟩ := exists_splits hw.plain.close hinside
    have hread : Splits (closeTag w) (head ++ y) (head ++ m) q := by
      refine ⟨?_, fun h => hsplit.2 (hhead.infix_iff.mp h)⟩
      rw [hsplit.1, List.append_assoc, List.append_assoc, List.append_assoc]
      rfl
    rw [← List.append_assoc, upTo_splits hw hread]
    constructor
    · intro heq
      rw [← heq] at hinside
      exact absurd (hinside.trans (List.take_prefix _ _).isInfix) hread.2
    · intro heq
      -- the closing tag of `y` would come too early
      obtain ⟨b, hb⟩ : y <+: head ++ y := by
        conv_lhs => rw [heq]
        exact List.take_prefix _ _
      have hearly : Splits (closeTag w) (head ++ y) m (q ++ b) := by
        refine ⟨?_, hsplit.2⟩
        rw [← hb, ← List.append_assoc]
        exact congrArg (· ++ b) hsplit.1
      obtain ⟨hsame, -⟩ := splits_unique hw.plain.close hearly hread
      exact absurd (List.append_left_eq_self.mp hsame.symm) hne
  · have hfree : Free (closeTag w) (head ++ y) (closeTag w ++ e) :=
      hhead.append (text_free hw.plain.close hinside head_tag)
    rw [← List.append_assoc, upTo_close hfree]
    exact eq_comm

-- The second text behind a text in which its tag is open.
theorem unclosed_text (ht : IsName t) (hw : IsName w) (hne : t ≠ w) (hclose : ¬closeTag w <:+: e)
    (hr : ¬closeTag w <:+: r) :
    upTo w maxLen (r ++ (closeTag t ++ (element w y ++ e))) = y ↔
      y = [] ∨ y = (r ++ closeTag t ++ tag w ++ y).take (maxLen - 1) := by
  have hplain := hw.plain.close
  have hpast {b : List UB} : Free (closeTag w) (r ++ closeTag t) b :=
    (text_free hplain hr head_tag).append
      (tag_free hplain ht.plain.close fun h => hne (List.cons.inj h).2.symm)
  by_cases hempty : y = []
  · have hself : Free (closeTag w) (element w y) e := by
      rw [element, if_pos hempty]
      exact tag_free hplain hw.plain.selfClose (hw.close_ne w)
    rw [← List.append_assoc, upTo_none fun h => hclose (hself.infix_iff.mp (hpast.infix_iff.mp h))]
    exact ⟨fun h => Or.inl h.symm, fun _ => hempty.symm⟩
  have hhead {b : List UB} : Free (closeTag w) (r ++ closeTag t ++ tag w) b :=
    hpast.append (tag_free hplain hw.plain fun h => hw.ne_close w h.symm)
  rw [element_ne hempty, ← List.append_assoc, ← List.append_assoc]
  have hsome : r ++ closeTag t ++ tag w ≠ [] :=
    List.append_ne_nil_of_right_ne_nil _ (List.cons_ne_nil _ _)
  rw [read_again hw hhead hsome]
  exact ⟨Or.inr, fun h => h.resolve_left hempty⟩

theorem extract_second (ht : IsName t) (hw : IsName w) (hne : t ≠ w) (hlen : y.length < maxLen)
    (hopen : ¬tag w <:+: e) (hclose : ¬closeTag w <:+: e) :
    extractTagCdata (element t x ++ (element w y ++ e)) w maxLen = y ↔
      SecondReads t w maxLen x y := by
  by_cases htag : tag w <:+: x
  · obtain ⟨u, r, hsplit⟩ := exists_splits hw.plain htag
    rw [element_ne (ne_nil_of_tag htag), extract_skip hw (tag_free hw.plain ht.plain hne.symm),
      extract_splits hw hsplit]
    by_cases hinside : closeTag w <:+: r
    · obtain ⟨m, q, hsplit'⟩ := exists_splits hw.plain.close hinside
      rw [upTo_splits hw hsplit']
      constructor
      · intro hm
        refine ⟨fun h => absurd htag h, fun u' r' m' q' hu hm' => ?_, fun u' r' hu hr => ?_⟩
        · obtain ⟨-, rfl⟩ := splits_unique hw.plain hsplit hu
          obtain ⟨rfl, -⟩ := splits_unique hw.plain.close hsplit' hm'
          exact hm.symm
        · obtain ⟨-, rfl⟩ := splits_unique hw.plain hsplit hu
          exact absurd hinside hr
      · exact fun h => (h.closed u r m q hsplit hsplit').symm
    · rw [unclosed_text ht hw hne hclose hinside]
      constructor
      · intro hy
        refine ⟨fun h => absurd htag h, fun u' r' m' q' hu hm' => ?_, fun u' r' hu _ => ?_⟩
        · obtain ⟨-, rfl⟩ := splits_unique hw.plain hsplit hu
          exact absurd hm'.isInfix hinside
        · obtain ⟨-, rfl⟩ := splits_unique hw.plain hsplit hu
          exact hy
      · exact fun h => h.unclosed u r hsplit hinside
  · have hfirst : Free (tag w) (element t x) (element w y ++ e) :=
      element_free hw.plain ht.plain hne.symm (hw.ne_close t) (hw.ne_self t) htag
    have hown : extractTagCdata (element w y ++ e) w maxLen = y ↔ ¬closeTag w <:+: y := by
      by_cases hempty : y = []
      · subst hempty
        have hself : Free (tag w) (element w []) e :=
          tag_free hw.plain hw.plain.selfClose (hw.ne_self w)
        rw [extract_skip hw hself, extract_none hw hopen]
        exact ⟨fun _ => tag_infix_nil, fun _ => rfl⟩
      · exact own_text hw hempty hlen e
    rw [extract_skip hw hfirst, hown]
    constructor
    · exact fun hends => ⟨fun _ => hends, fun _ _ _ _ hu _ => absurd hu.isInfix htag,
        fun _ _ hu _ => absurd hu.isInfix htag⟩
    · exact fun h => h.ends htag

-- Texts without the mark of a tag are read.
theorem not_infix_of_mark {n : List UB} (hx : 0x3C ∉ x) : ¬tag n <:+: x :=
  fun h => hx (h.subset List.mem_cons_self)

theorem FirstReads.of_plain (hx : 0x3C ∉ x) (hy : 0x3C ∉ y) : FirstReads t x y :=
  ⟨not_infix_of_mark hx, fun _ _ _ _ _ hu _ => absurd hu.isInfix (not_infix_of_mark hy)⟩

theorem SecondReads.of_plain (hx : 0x3C ∉ x) (hy : 0x3C ∉ y) : SecondReads t w maxLen x y :=
  ⟨fun _ => not_infix_of_mark hy, fun _ _ _ _ hu _ => absurd hu.isInfix (not_infix_of_mark hx),
    fun _ _ hu _ => absurd hu.isInfix (not_infix_of_mark hx)⟩

end Reads

end BTron.ChatXml
