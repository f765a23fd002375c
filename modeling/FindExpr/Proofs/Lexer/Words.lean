import FindExpr.Lexeme
import FindExpr.Proofs.Text.Blank
import FindExpr.Proofs.Text.Fold

namespace FindExpr

theorem isBare_of_isAlphanum {c : Char} (h : c.isAlphanum = true) : isBare c = true := by
  have hd : delimiters.all (fun d => !d.isAlphanum) = true := by decide
  have hc : c ∉ delimiters := by
    intro hm
    have hn := List.all_eq_true.1 hd c hm
    rw [h] at hn
    cases hn
  simp [isBare, Text.isBlank_of_isAlphanum h, hc]

theorem ne_of_isBare {c d : Char} (h : isBare c = true) (hd : d ∈ delimiters) : c ≠ d := by
  rintro rfl
  simp [isBare, hd] at h

variable {w w' rest rest' : List Char}

theorem takeWhile_isBare (hw : w.all isBare = true) (hr : wordEnds rest = true) :
    (w ++ rest).takeWhile isBare = w := by
  rw [List.takeWhile_append_of_pos (List.all_eq_true.1 hw)]
  cases rest with
  | nil => simp
  | cons c rest =>
      have hc : isBare c = false := by simpa [wordEnds] using hr
      simp [hc]

theorem dropWhile_isBare (hw : w.all isBare = true) (hr : wordEnds rest = true) :
    (w ++ rest).dropWhile isBare = rest := by
  rw [List.dropWhile_append_of_pos (List.all_eq_true.1 hw)]
  cases rest with
  | nil => rfl
  | cons c rest =>
      have hc : isBare c = false := by simpa [wordEnds] using hr
      simp [hc]

theorem wordEnds_dropWhile (text : List Char) : wordEnds (text.dropWhile isBare) = true := by
  rw [wordEnds, Option.all_eq_true]
  intro c hc
  have h := List.head?_dropWhile_not isBare text
  rw [hc] at h
  simpa using h

theorem wordEnds_append {blanks text : List Char} (h : blanks.all Text.isBlank = true)
    (ht : blanks = [] → wordEnds text = true) : wordEnds (blanks ++ text) = true := by
  cases blanks with
  | nil => exact ht rfl
  | cons c blanks =>
      rw [List.all_cons, Bool.and_eq_true] at h
      simp [wordEnds, isBare, h.1]

theorem eq_of_append_eq (h : w ++ rest = w' ++ rest') (hw : w.all isBare = true)
    (hw' : w'.all isBare = true) (hr : wordEnds rest = true) (hr' : wordEnds rest' = true) :
    w = w' ∧ rest = rest' := by
  constructor
  · rw [← takeWhile_isBare hw hr, h, takeWhile_isBare hw' hr']
  · rw [← dropWhile_isBare hw hr, h, dropWhile_isBare hw' hr']

theorem all_isBare_of_map_toUpper (h : (w.map Char.toUpper).all Char.isUpper = true) :
    w.all isBare = true := by
  rw [List.all_map, List.all_eq_true] at h
  rw [List.all_eq_true]
  intro c hc
  exact isBare_of_isAlphanum (Text.isAlphanum_of_isUpper_toUpper (h c hc))

namespace Lexeme

variable {capitals : List Char}

theorem wholeWord?_append (hu : capitals.all Char.isUpper = true) (hw : w.all isBare = true)
    (hr : wordEnds rest = true) :
    wholeWord? capitals (w ++ rest) =
      if w.map Char.toUpper = capitals then some (w, rest) else none := by
  split
  · next h =>
      rw [wholeWord?, ← h, Text.splitFolded?_append, Option.filter_some, if_pos hr]
  · next h =>
      rw [Option.eq_none_iff_forall_not_mem]
      rintro ⟨w', rest'⟩ hs
      obtain ⟨hs, hr'⟩ := Option.filter_eq_some_iff.1 hs
      obtain ⟨he, rfl⟩ := Text.splitFolded?_eq_some_iff.1 hs
      exact h (by rw [(eq_of_append_eq he hw (all_isBare_of_map_toUpper hu) hr hr').1])

theorem wholeWord?_eq (hu : capitals.all Char.isUpper = true) (text : List Char) :
    wholeWord? capitals text =
      if (text.takeWhile isBare).map Char.toUpper = capitals then
        some (text.takeWhile isBare, text.dropWhile isBare)
      else none := by
  have h := wholeWord?_append hu (w := text.takeWhile isBare) List.all_takeWhile
    (wordEnds_dropWhile text)
  rwa [List.takeWhile_append_dropWhile] at h

def spells (w : List Char) (k : Keyword) : Bool := w.map Char.toUpper == k.text.toList

def classify (w : List Char) : TokenKind :=
  match keywords.find? (spells w) with
  | some k => .keyword k
  | none => .literal

theorem classify_of_ne (hk : ∀ k ∈ keywords, w.map Char.toUpper ≠ k.text.toList) :
    classify w = .literal := by
  have hf : keywords.find? (spells w) = none := by
    rw [List.find?_eq_none]
    exact fun k hm hs => hk k hm (eq_of_beq hs)
  rw [classify, hf]

theorem classify_of_eq {k : Keyword} (hk : k ∈ keywords)
    (hw : w.map Char.toUpper = k.text.toList) : classify w = .keyword k := by
  have hf : ∀ k ∈ keywords, keywords.find? (fun j => k.text.toList == j.text.toList) = some k := by
    decide
  have hs : keywords.find? (spells w) = some k := by
    rw [← hf k hk, ← hw]
    rfl
  rw [classify, hs]

def word (w : List Char) : Lexeme := ⟨classify w, w, none⟩

theorem sign?_of_isBare {s : Symbol} {c : Char} {text : List Char} (h : isBare c = true) :
    sign? s (c :: text) = none := by
  have hs : ∃ d ds, s.text.toList = d :: ds ∧ d ∈ delimiters := by
    cases s <;> exact ⟨_, _, rfl, by decide⟩
  obtain ⟨d, ds, hs, hd⟩ := hs
  have hc : d ≠ c := (ne_of_isBare h hd).symm
  simp [sign?, hs, hc]

theorem quoted?_of_isBare {style : QuoteStyle} {c : Char} {text : List Char}
    (h : isBare c = true) : quoted? style (c :: text) = none := by
  have hc : c ≠ style.mark := ne_of_isBare h (by cases style <;> decide)
  simp [quoted?, QuoteStyle.quoted?, hc]

theorem findSome?_keyword? (hw : w.all isBare = true) (hr : wordEnds rest = true)
    {ks : List Keyword} (hk : ∀ k ∈ ks, k.text.toList.all Char.isUpper = true) :
    ks.findSome? (keyword? · (w ++ rest)) =
      (ks.find? (spells w)).map fun k => (⟨.keyword k, w, none⟩, rest) := by
  induction ks with
  | nil => rfl
  | cons k ks ih =>
      rw [List.forall_mem_cons] at hk
      have hf : keyword? k (w ++ rest) =
          if spells w k then some (⟨.keyword k, w, none⟩, rest) else none := by
        rw [keyword?, wholeWord?_append hk.1 hw hr]
        by_cases h : w.map Char.toUpper = k.text.toList <;> simp [spells, h]
      rw [List.findSome?_cons, List.find?_cons, hf, ih hk.2]
      cases spells w k <;> rfl

/-- A text that begins with a bare word has it as its first lexeme, or else `ORDER BY`. -/
theorem first?_word (hn : w ≠ []) (hw : w.all isBare = true) (hr : wordEnds rest = true) :
    first? (w ++ rest) = (orderBy? (w ++ rest)).or (some (word w, rest)) := by
  have hk : keywords.findSome? (keyword? · (w ++ rest)) = _ :=
    findSome?_keyword? hw hr (by decide)
  have hb : bare? (w ++ rest) = some (⟨.literal, w, none⟩, rest) := by
    rw [bare?, takeWhile_isBare hw hr, dropWhile_isBare hw hr, if_neg hn]
  obtain ⟨c, w', rfl⟩ := List.exists_cons_of_ne_nil hn
  have hc : isBare c = true := List.all_eq_true.1 hw c List.mem_cons_self
  have hs : ∀ s, sign? s (c :: w' ++ rest) = none := fun s => sign?_of_isBare hc
  have hq : ∀ style, quoted? style (c :: w' ++ rest) = none := fun style => quoted?_of_isBare hc
  simp only [first?, signs, List.findSome?_cons, List.findSome?_nil, hs, hq, hk, hb,
    Option.orElse_eq_orElse, Option.orElse_eq_or, Option.none_or, word, classify]
  cases keywords.find? (spells (c :: w')) <;> rfl

theorem wordEnds_of_leadingBlank {text : List Char} (h : Text.leadingBlank text ≠ []) :
    wordEnds text = true := by
  cases text with
  | nil => rfl
  | cons c text =>
      cases hc : Text.isBlank c with
      | false => exact absurd (by simp [Text.leadingBlank, hc]) h
      | true => simp [wordEnds, isBare, hc]

theorem orderBy?_append (hw : w.all isBare = true) (hr : wordEnds rest = true) :
    orderBy? (w ++ rest) =
      if w.map Char.toUpper = "ORDER".toList ∧ Text.leadingBlank rest ≠ [] then
        (wholeWord? "BY".toList (Text.skipBlank rest)).map fun split =>
          (⟨.keyword .orderBy, w ++ Text.leadingBlank rest ++ split.1, none⟩, split.2)
      else none := by
  split
  · next h =>
      rw [orderBy?, ← h.1, Text.splitFolded?_append, Option.bind_some]
      exact if_neg h.2
  · next h =>
      rw [Option.eq_none_iff_forall_not_mem]
      intro x hx
      obtain ⟨⟨order, behind⟩, hs, hx⟩ := Option.bind_eq_some_iff.1 hx
      obtain ⟨he, ho⟩ := Text.splitFolded?_eq_some_iff.1 hs
      dsimp only at hx
      split at hx
      · cases hx
      · next hb =>
          have hu : (order.map Char.toUpper).all Char.isUpper = true := by
            rw [ho]
            decide
          obtain ⟨rfl, rfl⟩ := eq_of_append_eq he hw (all_isBare_of_map_toUpper hu) hr
            (wordEnds_of_leadingBlank hb)
          exact h ⟨ho, hb⟩

theorem first?_word_append (hn : w ≠ []) (hw : w.all isBare = true) (hr : wordEnds rest = true)
    (hb : w.map Char.toUpper = "ORDER".toList →
      wholeWord? "BY".toList (Text.skipBlank rest) = none) :
    first? (w ++ rest) = some (word w, rest) := by
  rw [first?_word hn hw hr, orderBy?_append hw hr]
  split
  · next h =>
      rw [hb h.1]
      rfl
  · rfl

theorem bare_of_spelled (hc : capitals.all Char.isUpper = true) (hn : capitals ≠ [])
    (h : w.map Char.toUpper = capitals) : w ≠ [] ∧ w.all isBare = true := by
  constructor
  · rintro rfl
    exact hn h.symm
  · exact all_isBare_of_map_toUpper (h ▸ hc)

theorem bare_of_keyword {k : Keyword} (hk : k ∈ keywords)
    (h : w.map Char.toUpper = k.text.toList) : w ≠ [] ∧ w.all isBare = true := by
  have hu : ∀ k ∈ keywords, k.text.toList.all Char.isUpper = true ∧ k.text.toList ≠ [] := by decide
  exact bare_of_spelled (hu k hk).1 (hu k hk).2 h

theorem isBlank_of_isBare {c : Char} (h : isBare c = true) : Text.isBlank c = false := by
  rw [isBare, Bool.and_eq_true, Bool.not_eq_true'] at h
  exact h.1

theorem skipBlank_of_bare (hn : w ≠ []) (hw : w.all isBare = true) (rest : List Char) :
    Text.skipBlank (w ++ rest) = w ++ rest := by
  obtain ⟨c, w, rfl⟩ := List.exists_cons_of_ne_nil hn
  have hc := isBlank_of_isBare (List.all_eq_true.1 hw c List.mem_cons_self)
  exact List.dropWhile_cons_of_neg (by simp [hc])

theorem first?_orderBy {o blanks b : List Char} (ho : o.map Char.toUpper = "ORDER".toList)
    (hn : blanks ≠ []) (hs : blanks.all Text.isBlank = true)
    (hb : b.map Char.toUpper = "BY".toList) (hr : wordEnds rest = true) :
    first? (o ++ blanks ++ b ++ rest) =
      some (⟨.keyword .orderBy, o ++ blanks ++ b, none⟩, rest) := by
  obtain ⟨hon, how⟩ := bare_of_spelled (by decide) (by decide) ho
  obtain ⟨hbn, hbw⟩ := bare_of_spelled (by decide) (by decide) hb
  have he : wordEnds (blanks ++ (b ++ rest)) = true := wordEnds_append hs fun h => absurd h hn
  have hk := skipBlank_of_bare hbn hbw rest
  rw [List.append_assoc, List.append_assoc, first?_word hon how he, orderBy?_append how he,
    Text.leadingBlank_append hs hk, if_pos ⟨ho, hn⟩, Text.skipBlank_append hs, hk,
    wholeWord?_append (by decide) hbw hr, if_pos hb]
  rfl

end Lexeme

end FindExpr
