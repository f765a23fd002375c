import FindExpr.Proofs.Lexer.Readable
import FindExpr.Proofs.Lexer.Units
import FindExpr.Proofs.Text.Bytes
import FindExpr.Proofs.Text.Utf8

namespace FindExpr

def Text.bytesFrom? (offset : Nat) (text : List Char) : Option (List UInt8) :=
  if offset ≤ (bytes text).length then some ((bytes text).drop offset) else none

namespace QuoteStyle

/-- What the scan comes to from one offset: the closing quote, with the size of the body, or the end
of the text, or the offset behind a backslash and its character. -/
inductive Round where
  | closed (size : Nat)
  | unclosed
  | again (offset : Nat)

def roundAt? (style : QuoteStyle) (text : List Char) (place : Nat) : Option Round := do
  let byte ← (Text.bytes text)[place]?
  if byte = style.mark.toUInt8 then some (.closed (place - 1))
  else
    let rest ← Text.dropBytes? (place + 1) text
    match rest.head? with
    | none => some .unclosed
    | some c => some (.again (place + 1 + c.utf8Size))

/-- Looks for the next quote or backslash from an offset on. -/
def round? (search : Text.ByteSearch) (style : QuoteStyle) (text : List Char) (offset : Nat) :
    Option Round := do
  let behind ← Text.bytesFrom? offset text
  match search.either style.mark.toUInt8 '\\'.toUInt8 behind with
  | none => some .unclosed
  | some found => style.roundAt? text (offset + found)

variable {search : Text.ByteSearch} {style : QuoteStyle} {i j n : Nat} {c : Char}
  {text before after tail : List Char} {us : List (List Char)}

theorem lt_of_again (h : style.round? search text i = some (.again j)) :
    i < j ∧ i < Text.size text := by
  obtain ⟨behind, -, h⟩ := Option.bind_eq_some_iff.1 h
  split at h
  · cases h
  · obtain ⟨byte, hb, h⟩ := Option.bind_eq_some_iff.1 h
    obtain ⟨hlt, -⟩ := List.getElem?_eq_some_iff.1 hb
    rw [Text.length_bytes] at hlt
    split at h
    · cases h
    · obtain ⟨rest, -, h⟩ := Option.bind_eq_some_iff.1 h
      split at h
      · cases h
      · obtain rfl := Round.again.inj (Option.some.inj h)
        omega

def scanFrom? (search : Text.ByteSearch) (style : QuoteStyle)
    (text : List Char) (offset : Nat) : Option (Option Nat) :=
  match _h : style.round? search text offset with
  | none => none
  | some (.closed size) => some (some size)
  | some .unclosed => some none
  | some (.again offset') => scanFrom? search style text offset'
termination_by Text.size text - offset
decreasing_by
  have hlt := lt_of_again ‹_›
  omega

/-- The size of the body of the quoted text that a text begins with. -/
def scan? (search : Text.ByteSearch) (style : QuoteStyle)
    (text : List Char) : Option (Option Nat) :=
  if (Text.bytes text).head? = some style.mark.toUInt8 then style.scanFrom? search text 1
  else some none

/-- The offsets from which the scan looks for the next byte. -/
inductive Reaches (search : Text.ByteSearch) (style : QuoteStyle)
    (text : List Char) : Nat → Prop
  | first (h : (Text.bytes text).head? = some style.mark.toUInt8) : Reaches search style text 1
  | next {i j : Nat} (hi : Reaches search style text i)
      (h : style.round? search text i = some (.again j)) : Reaches search style text j

theorem scanFrom?_eq (search : Text.ByteSearch) (style : QuoteStyle)
    (text : List Char) (i : Nat) :
    style.scanFrom? search text i = (style.round? search text i).bind fun
      | .closed size => some (some size)
      | .unclosed => some none
      | .again j => style.scanFrom? search text j := by
  rw [scanFrom?]
  split <;> simp [*]

theorem utf8Size_mark (style : QuoteStyle) : style.mark.utf8Size = 1 := by
  cases style <;> rfl

theorem round?_append (h : search.Correct) (style : QuoteStyle) (before after : List Char) :
    style.round? search (before ++ after) (Text.size before) =
      match Text.offset? [style.mark, '\\'] after with
      | none => some .unclosed
      | some found => style.roundAt? (before ++ after) (Text.size before + found) := by
  have hb : Text.bytesFrom? (Text.size before) (before ++ after) = some (Text.bytes after) := by
    rw [Text.bytesFrom?, if_pos (by simp), Text.bytes_append, ← Text.length_bytes,
      List.drop_left]
  rw [round?, hb, Option.bind_eq_bind, Option.bind_some, h.either_eq]

theorem ascii_stops (style : QuoteStyle) : ∀ a ∈ [style.mark, '\\'], a.toNat < 128 := by
  have hm : style.mark.toNat < 128 := by cases style <;> decide
  exact List.forall_mem_cons.2 ⟨hm, List.forall_mem_singleton.2 (by decide)⟩

theorem getElem?_bytes (hc : c.toNat < 128) (before after : List Char) :
    (Text.bytes (before ++ c :: after))[Text.size before]? = some c.toUInt8 := by
  rw [Text.bytes_append, ← Text.length_bytes, List.getElem?_append_right (Nat.le_refl _),
    Nat.sub_self, Text.bytes_cons, Text.utf8EncodeChar_of_ascii hc]
  rfl

theorem roundAt?_mark (style : QuoteStyle) (before after : List Char) :
    style.roundAt? (before ++ style.mark :: after) (Text.size before) =
      some (.closed (Text.size before - 1)) := by
  have hb := getElem?_bytes (style.ascii_stops _ List.mem_cons_self) before after
  rw [roundAt?, hb, Option.bind_eq_bind, Option.bind_some, if_pos rfl]

theorem roundAt?_backslash (style : QuoteStyle) (before after : List Char) :
    style.roundAt? (before ++ '\\' :: after) (Text.size before) =
      some (match after.head? with
        | none => .unclosed
        | some c => .again (Text.size before + 1 + c.utf8Size)) := by
  have hb := getElem?_bytes (c := '\\') (by decide) before after
  have hn : '\\'.toUInt8 ≠ style.mark.toUInt8 := by cases style <;> decide
  have hd : Text.dropBytes? (Text.size before + 1) (before ++ '\\' :: after) = some after := by
    have h := Text.dropBytes?_size_append (before ++ ['\\']) after
    rwa [Text.size_append, List.append_assoc] at h
  rw [roundAt?, hb, Option.bind_eq_bind, Option.bind_some, if_neg hn, hd]
  cases after <;> rfl

theorem round?_nil (h : search.Correct) (style : QuoteStyle) (before : List Char) :
    style.round? search before (Text.size before) = some .unclosed := by
  have hr := round?_append h style before []
  rwa [List.append_nil] at hr

theorem round?_mark (h : search.Correct) (style : QuoteStyle) (before after : List Char) :
    style.round? search (before ++ style.mark :: after) (Text.size before) =
      some (.closed (Text.size before - 1)) := by
  rw [round?_append h, Text.offset?_of_mem style.ascii_stops List.mem_cons_self]
  exact style.roundAt?_mark before after

theorem round?_backslash (h : search.Correct) (style : QuoteStyle) (before after : List Char) :
    style.round? search (before ++ '\\' :: after) (Text.size before) =
      some (match after.head? with
        | none => .unclosed
        | some c => .again (Text.size before + 1 + c.utf8Size)) := by
  rw [round?_append h, Text.offset?_of_mem style.ascii_stops (by simp)]
  exact style.roundAt?_backslash before after

theorem round?_plain (h : search.Correct) (hm : c ≠ style.mark) (hb : c ≠ '\\')
    (before after : List Char) :
    style.round? search (before ++ c :: after) (Text.size before) =
      style.round? search (before ++ c :: after) (Text.size (before ++ [c])) := by
  have hr := round?_append h style (before ++ [c]) after
  rw [← List.append_cons] at hr
  rw [hr, round?_append h, Text.offset?_of_not_mem style.ascii_stops (by simp [hm, hb])]
  cases Text.offset? [style.mark, '\\'] after with
  | none => rfl
  | some found => simp [Nat.add_assoc]

theorem scanFrom?_plain (h : search.Correct) (hm : c ≠ style.mark) (hb : c ≠ '\\')
    (before after : List Char) :
    style.scanFrom? search (before ++ c :: after) (Text.size before) =
      style.scanFrom? search (before ++ [c] ++ after) (Text.size (before ++ [c])) := by
  rw [scanFrom?_eq, round?_plain h hm hb, ← scanFrom?_eq, ← List.append_cons]

theorem scanFrom?_append (h : search.Correct) (style : QuoteStyle) (before after : List Char) :
    style.scanFrom? search (before ++ after) (Text.size before) =
      some ((style.body? after).map fun split => Text.size before + Text.size split.1 - 1) := by
  -- What the scan by characters has read moves over to `before`, so offsets stay sizes of that.
  fun_induction body? style after generalizing before with
  | case1 => rw [List.append_nil, scanFrom?_eq, round?_nil h]; rfl
  | case2 => rw [scanFrom?_eq, round?_mark h]; rfl
  | case3 c hm =>
      by_cases hb : c = '\\'
      · rw [hb, scanFrom?_eq, round?_backslash h]
        rfl
      · rw [scanFrom?_plain h hm hb, List.append_nil, scanFrom?_eq, round?_nil h]
        rfl
  | case4 d rest => rw [scanFrom?_eq, round?_mark h]; rfl
  | case5 d rest hm ih =>
      have hs : before ++ '\\' :: d :: rest = before ++ ['\\', d] ++ rest := by simp
      have hn : Text.size before + 1 + d.utf8Size = Text.size (before ++ ['\\', d]) := by
        have hc : '\\'.utf8Size = 1 := rfl
        simp only [Text.size_append, Text.size_cons, Text.size_nil]
        omega
      rw [scanFrom?_eq, round?_backslash h, Option.bind_some]
      dsimp only [List.head?_cons]
      rw [hn, hs, ih, Option.map_map]
      congr 2
      funext split
      simp [Nat.add_assoc]
  | case6 c d rest hm hb ih =>
      rw [scanFrom?_plain h hm hb, ih, Option.map_map]
      congr 2
      funext split
      simp [Nat.add_assoc]

theorem head?_bytes_mark_iff :
    (Text.bytes text).head? = some style.mark.toUInt8 ↔ text.head? = some style.mark :=
  Text.head?_bytes_iff (style.ascii_stops _ List.mem_cons_self)

theorem scan?_eq (h : search.Correct) (style : QuoteStyle) (text : List Char) :
    style.scan? search text = some ((style.quoted? text).map fun split => Text.size split.1) := by
  unfold scan?
  simp only [head?_bytes_mark_iff]
  cases text with
  | nil => rfl
  | cons c rest =>
      rw [quoted?, List.head?_cons]
      by_cases hc : c = style.mark
      · have hs := scanFrom?_append h style [style.mark] rest
        have hm : Text.size [style.mark] = 1 := style.utf8Size_mark
        rw [hm, List.singleton_append] at hs
        rw [hc, if_pos rfl, if_pos rfl, hs]
        simp
      · rw [if_neg (fun he => hc (Option.some.inj he)), if_neg hc]
        rfl

theorem exists_round? (h : search.Correct) (style : QuoteStyle) (before after : List Char) :
    ∃ r, style.round? search (before ++ after) (Text.size before) = some r ∧
      ∀ j, r = .again j → Text.IsBoundary (before ++ after) j := by
  -- One search jumps over any number of characters, each of which moves over to `before`.
  induction after generalizing before with
  | nil => exact ⟨.unclosed, by rw [List.append_nil, round?_nil h], nofun⟩
  | cons c after ih =>
      by_cases hm : c = style.mark
      · subst hm
        exact ⟨.closed (Text.size before - 1), round?_mark h style before after, nofun⟩
      · by_cases hb : c = '\\'
        · subst hb
          refine ⟨_, round?_backslash h style before after, fun j hj => ?_⟩
          cases after with
          | nil => cases hj
          | cons d after =>
              obtain rfl := Round.again.inj hj
              refine ⟨before ++ ['\\', d], after, by simp, ?_⟩
              have hc : '\\'.utf8Size = 1 := rfl
              simp only [Text.size_append, Text.size_cons, Text.size_nil]
              omega
        · obtain ⟨r, hr, hj⟩ := ih (before ++ [c])
          rw [← List.append_cons] at hr hj
          exact ⟨r, (round?_plain h hm hb before after).trans hr, hj⟩

theorem Reaches.goesOn (hi : style.Reaches search text i) (h : search.Correct) :
    Text.IsBoundary text i ∧ ∃ r, style.round? search text i = some r := by
  have hb : Text.IsBoundary text i := by
    induction hi with
    | first hf =>
        obtain ⟨rest, rfl⟩ := List.head?_eq_some_iff.1 (head?_bytes_mark_iff.1 hf)
        exact ⟨[style.mark], rest, rfl, style.utf8Size_mark.symm⟩
    | next hi hr ih =>
        obtain ⟨before, after, rfl, rfl⟩ := ih
        obtain ⟨r, hr', hj⟩ := exists_round? h style before after
        exact hj _ (Option.some.inj (hr'.symm.trans hr))
  obtain ⟨before, after, rfl, rfl⟩ := hb
  obtain ⟨r, hr, -⟩ := exists_round? h style before after
  exact ⟨Text.isBoundary_size before after, r, hr⟩

/-- Whether a text begins with quoted text whose body is made of the units `us`. -/
def Quotes (style : QuoteStyle) (text : List Char) (us : List (List Char)) (tail : List Char) :
    Prop :=
  text = style.enclose us.flatten ++ tail ∧ ∀ u ∈ us, style.BodyUnit u

theorem units_flatten (hu : ∀ u ∈ us, style.BodyUnit u) : units us.flatten = us := by
  induction us with
  | nil => rfl
  | cons u us ih =>
      rw [List.forall_mem_cons] at hu
      rw [List.flatten_cons]
      cases hu.1 with
      | plain hm hb => rw [List.singleton_append, units_cons hb, ih hu.2]
      | escaped c => rw [List.cons_append, List.singleton_append, units_backslash, ih hu.2]

theorem Quotes.quoted?_eq (h : style.Quotes text us tail) :
    style.quoted? text = some (us.flatten, tail) := by
  obtain ⟨rfl, hu⟩ := h
  have he : style.enclose us.flatten ++ tail =
      style.mark :: (us.flatten ++ style.mark :: tail) := by
    simp [enclose]
  rw [he, quoted?, if_pos rfl, body?_flatten hu]

theorem exists_quotes {body : List Char} (h : style.quoted? text = some (body, tail)) :
    ∃ us, body = us.flatten ∧ style.Quotes text us tail := by
  have ht := eq_append_of_quoted? h
  cases text with
  | nil => cases h
  | cons c rest =>
      rw [quoted?] at h
      split at h
      · obtain ⟨us, rfl, hu⟩ := exists_units h
        exact ⟨us, rfl, ht, hu⟩
      · cases h

theorem Quotes.unique {us' : List (List Char)} {tail' : List Char}
    (h : style.Quotes text us tail) (h' : style.Quotes text us' tail') :
    us = us' ∧ tail = tail' := by
  obtain ⟨hf, ht⟩ := Prod.mk.inj (Option.some.inj (h.quoted?_eq.symm.trans h'.quoted?_eq))
  exact ⟨by rw [← units_flatten h.2, hf, units_flatten h'.2], ht⟩

end QuoteStyle

/-- Takes the backslashes out of a body, unless one stands alone at the end. -/
def unescape? : List Char → Option (List Char)
  | [] => some []
  | [c] => if c = '\\' then none else some [c]
  | c :: d :: rest =>
    if c = '\\' then (unescape? rest).map (d :: ·) else (unescape? (d :: rest)).map (c :: ·)

/-- A body without a backslash byte is left as it is. -/
def unescapeBytes? (search : Text.ByteSearch) (body : List Char) : Option (List Char) :=
  if search.one '\\'.toUInt8 (Text.bytes body) = none then some body else unescape? body

theorem unescape?_cons {c : Char} (hc : c ≠ '\\') (rest : List Char) :
    unescape? (c :: rest) = (unescape? rest).map (c :: ·) := by
  cases rest <;> simp [unescape?, hc]

theorem unescape_of_unescape? {body text : List Char} (h : unescape? body = some text) :
    unescape body = text := by
  fun_induction unescape? body generalizing text with
  | case1 => exact Option.some.inj h
  | case2 => cases h
  | case3 c hc => exact Option.some.inj h
  | case4 d rest ih =>
      obtain ⟨text, ht, rfl⟩ := Option.map_eq_some_iff.1 h
      rw [unescape, if_pos rfl, ih ht]
  | case5 c d rest hc ih =>
      obtain ⟨text, ht, rfl⟩ := Option.map_eq_some_iff.1 h
      rw [unescape, if_neg hc, ih ht]

theorem unescape?_of_not_mem {body : List Char} (h : '\\' ∉ body) : unescape? body = some body := by
  induction body with
  | nil => rfl
  | cons c body ih =>
      rw [List.mem_cons, not_or] at h
      rw [unescape?_cons (Ne.symm h.1), ih h.2]
      rfl

theorem unescapeBytes?_eq {search : Text.ByteSearch} (h : search.Correct) (body : List Char) :
    unescapeBytes? search body = unescape? body := by
  rw [unescapeBytes?, h.one_eq]
  split
  · next hn => exact (unescape?_of_not_mem ((Text.offset?_eq_none_iff (by decide)).1 hn)).symm
  · rfl

theorem QuoteStyle.exists_unescape? {style : QuoteStyle} {us : List (List Char)}
    (hu : ∀ u ∈ us, style.BodyUnit u) :
    ∃ text, unescape? us.flatten = some text ∧
      List.Forall₂ (fun u c => u = [c] ∧ c ≠ '\\' ∨ u = ['\\', c]) us text := by
  induction us with
  | nil => exact ⟨[], rfl, .nil⟩
  | cons u us ih =>
      rw [List.forall_mem_cons] at hu
      obtain ⟨text, ht, hf⟩ := ih hu.2
      rw [List.flatten_cons]
      cases hu.1 with
      | @plain d hm hb =>
          exact ⟨d :: text, by rw [List.singleton_append, unescape?_cons hb, ht]; rfl,
            .cons (.inl ⟨rfl, hb⟩) hf⟩
      | escaped d =>
          exact ⟨d :: text, by simp [unescape?, ht], .cons (.inr rfl) hf⟩

/-- What the scan of a text by its bytes comes to. Every cut it makes is between two characters, and
it finds quoted text exactly where the body is a sequence of units, of which there is one. No body
that it finds ends with a backslash that stands alone. -/
structure QuoteStyle.ScansUnits (search : Text.ByteSearch) (style : QuoteStyle)
    (text : List Char) : Prop where
  goesOn : ∀ i, style.Reaches search text i →
    Text.IsBoundary text i ∧ ∃ r, style.round? search text i = some r
  eq_quoted? : style.scan? search text =
    some ((style.quoted? text).map fun split => Text.size split.1)
  closed_iff : ∀ n, style.scan? search text = some (some n) ↔
    ∃ us tail, style.Quotes text us tail ∧ (Text.bytes us.flatten).length = n
  unclosed_iff : style.scan? search text = some none ↔ ∀ us tail, ¬ style.Quotes text us tail
  unique : ∀ us tail us' tail', style.Quotes text us tail → style.Quotes text us' tail' →
    us = us' ∧ tail = tail'
  unescaped : ∀ us tail, style.Quotes text us tail →
    unescapeBytes? search us.flatten = some (unescape us.flatten) ∧
      List.Forall₂ (fun u c => u = [c] ∧ c ≠ '\\' ∨ u = ['\\', c]) us (unescape us.flatten)

/-- Whatever searches for bytes are given, the scan by bytes reads the units of quoted text. -/
theorem scan_reads_units (search : Text.ByteSearch) (h : search.Correct) (style : QuoteStyle)
    (text : List Char) : style.ScansUnits search text := by
  have hs := QuoteStyle.scan?_eq h style text
  refine ⟨fun i hi => hi.goesOn h, hs, fun n => ?_, ?_, fun _ _ _ _ hq hq' => hq.unique hq',
    fun us tail hq => ?_⟩
  · rw [hs, Option.some.injEq, Option.map_eq_some_iff]
    constructor
    · rintro ⟨⟨body, tail⟩, hq, rfl⟩
      obtain ⟨us, rfl, hu⟩ := QuoteStyle.exists_quotes hq
      exact ⟨us, tail, hu, Text.length_bytes _⟩
    · rintro ⟨us, tail, hq, rfl⟩
      exact ⟨_, hq.quoted?_eq, (Text.length_bytes _).symm⟩
  · rw [hs, Option.some.injEq, Option.map_eq_none_iff]
    constructor
    · intro hn us tail hq
      cases hn.symm.trans hq.quoted?_eq
    · intro hn
      rw [Option.eq_none_iff_forall_not_mem]
      rintro ⟨body, tail⟩ hq
      obtain ⟨us, -, hu⟩ := QuoteStyle.exists_quotes hq
      exact hn us tail hu
  · obtain ⟨value, hv, hf⟩ := QuoteStyle.exists_unescape? hq.2
    rw [unescapeBytes?_eq h, unescape_of_unescape? hv]
    exact ⟨hv, hf⟩

theorem scan_reads_units_escaped :
    let search : Text.ByteSearch :=
      ⟨fun a bytes => bytes.findIdx? (· ∈ [a]), fun a b bytes => bytes.findIdx? (· ∈ [a, b])⟩
    let text := ['\x22', 'é', '\\', '\x22', '\\', 'é', '\x22', ' ', '\x22']
    search.Correct ∧ QuoteStyle.double.ScansUnits search text ∧
      QuoteStyle.double.scan? search text = some (some 7) := by
  intro search text
  have h : search.Correct :=
    ⟨fun a bytes => Text.isFirst_iff.2 rfl, fun a b bytes => Text.isFirst_iff.2 rfl⟩
  have hs := scan_reads_units search h .double text
  refine ⟨h, hs, (hs.closed_iff 7).2 ?_⟩
  refine ⟨[['é'], ['\\', '\x22'], ['\\', 'é']], [' ', '\x22'], ⟨rfl, ?_⟩, Text.length_bytes _⟩
  rintro u hu
  simp only [List.mem_cons, List.not_mem_nil, or_false] at hu
  rcases hu with rfl | rfl | rfl
  · exact .plain (by decide) (by decide)
  · exact .escaped _
  · exact .escaped _

end FindExpr
