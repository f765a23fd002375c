import FindExpr.Text.Utf8

namespace FindExpr.Text

def bytes (text : List Char) : List UInt8 := text.flatMap String.utf8EncodeChar

/-- Whether a search for certain bytes has found the first place where one of them stands, or none
if there is no such place. -/
def IsFirst (sought bytes : List UInt8) : Option Nat → Prop
  | none => ∀ b ∈ bytes, b ∉ sought
  | some n => (∃ b ∈ sought, bytes[n]? = some b) ∧ ∀ b ∈ bytes.take n, b ∉ sought

/-- The searches that a text is read with: for one byte, and for the first of two. -/
structure ByteSearch where
  one : UInt8 → List UInt8 → Option Nat
  either : UInt8 → UInt8 → List UInt8 → Option Nat

structure ByteSearch.Correct (search : ByteSearch) : Prop where
  one_isFirst : ∀ a bytes, IsFirst [a] bytes (search.one a bytes)
  either_isFirst : ∀ a b bytes, IsFirst [a, b] bytes (search.either a b bytes)

variable {a c : Char} {b : UInt8} {sought : List UInt8} {found : Option Nat}
  {marks text : List Char}

@[simp] theorem bytes_nil : bytes [] = [] := rfl

@[simp] theorem bytes_cons (c : Char) (text : List Char) :
    bytes (c :: text) = String.utf8EncodeChar c ++ bytes text := rfl

@[simp] theorem bytes_append (xs ys : List Char) : bytes (xs ++ ys) = bytes xs ++ bytes ys :=
  List.flatMap_append

@[simp] theorem length_bytes (text : List Char) : (bytes text).length = size text := by
  induction text with
  | nil => rfl
  | cons c text ih => simp [ih]

theorem isFirst_iff {bytes : List UInt8} :
    IsFirst sought bytes found ↔ found = bytes.findIdx? (· ∈ sought) := by
  cases found with
  | none => simp [IsFirst, eq_comm (a := none)]
  | some n =>
      rw [eq_comm, List.findIdx?_eq_some_iff_getElem]
      constructor
      · rintro ⟨⟨b, hb, hn⟩, hlt⟩
        obtain ⟨hlen, rfl⟩ := List.getElem?_eq_some_iff.1 hn
        refine ⟨hlen, decide_eq_true hb, fun m hm => ?_⟩
        have hmem : bytes[m] ∈ bytes.take n :=
          List.mem_take_iff_getElem.2 ⟨m, Nat.lt_min.2 ⟨hm, Nat.lt_trans hm hlen⟩, rfl⟩
        simpa using hlt _ hmem
      · rintro ⟨hlen, hb, hlt⟩
        refine ⟨⟨bytes[n], of_decide_eq_true hb, List.getElem?_eq_getElem hlen⟩, fun b hmem => ?_⟩
        obtain ⟨m, hm, rfl⟩ := List.mem_take_iff_getElem.1 hmem
        simpa using hlt m (Nat.lt_min.1 hm).1

theorem byte_cases (h : b ∈ String.utf8EncodeChar c) :
    128 ≤ b.toNat ∨ c.toNat < 128 ∧ b.toNat = c.toNat := by
  have hor (x : UInt8) {y : UInt8} (hy : 128 ≤ y.toNat) : 128 ≤ (x ||| y).toNat := by
    rw [UInt8.toNat_or]
    exact Nat.le_trans hy Nat.right_le_or
  rcases Char.utf8Size_eq c with hs | hs | hs | hs
  · rw [String.utf8EncodeChar_eq_singleton hs, List.mem_singleton] at h
    have hc : c.toNat ≤ 127 := UInt32.le_iff_toNat_le.1 (Char.utf8Size_eq_one_iff.1 hs)
    refine .inr ⟨Nat.lt_succ_of_le hc, ?_⟩
    rw [h, UInt32.toNat_toUInt8]
    exact Nat.mod_eq_of_lt (Nat.lt_of_le_of_lt hc (by decide))
  · rw [String.utf8EncodeChar_eq_cons_cons hs] at h
    simp only [List.mem_cons, List.not_mem_nil, or_false] at h
    left
    rcases h with rfl | rfl <;> exact hor _ (by decide)
  · rw [String.utf8EncodeChar_eq_cons_cons_cons hs] at h
    simp only [List.mem_cons, List.not_mem_nil, or_false] at h
    left
    rcases h with rfl | rfl | rfl <;> exact hor _ (by decide)
  · rw [String.utf8EncodeChar_eq_cons_cons_cons_cons hs] at h
    simp only [List.mem_cons, List.not_mem_nil, or_false] at h
    left
    rcases h with rfl | rfl | rfl | rfl <;> exact hor _ (by decide)

theorem utf8EncodeChar_of_ascii (ha : a.toNat < 128) :
    String.utf8EncodeChar a = [a.toUInt8] :=
  String.utf8EncodeChar_eq_singleton
    (Char.utf8Size_eq_one_iff.2 (UInt32.le_iff_toNat_le.2 (Nat.le_of_lt_succ ha)))

/-- The byte of an ASCII character is in no other character. -/
theorem eq_of_byte_mem (ha : a.toNat < 128) (h : a.toUInt8 ∈ String.utf8EncodeChar c) : c = a := by
  have hb : a.toUInt8.toNat = a.toNat := by
    rw [← Char.toUInt8_val, UInt32.toNat_toUInt8]
    exact Nat.mod_eq_of_lt (Nat.lt_trans ha (by decide))
  rcases byte_cases h with h | ⟨-, h⟩
  · omega
  · rw [← Char.ofNat_toNat c, ← h, hb, Char.ofNat_toNat]

theorem head?_bytes_iff (ha : a.toNat < 128) :
    (bytes text).head? = some a.toUInt8 ↔ text.head? = some a := by
  cases text with
  | nil => simp
  | cons c text =>
      rw [List.head?_cons, Option.some.injEq]
      constructor
      · intro h
        have hn : String.utf8EncodeChar c ≠ [] := by
          rw [← List.length_pos_iff, String.length_utf8EncodeChar]
          exact c.utf8Size_pos
        obtain ⟨b, bs, hb⟩ := List.exists_cons_of_ne_nil hn
        rw [bytes_cons, hb] at h
        exact eq_of_byte_mem ha (by simp [hb, Option.some.inj h])
      · rintro rfl
        rw [bytes_cons, utf8EncodeChar_of_ascii ha]
        rfl

def offset? (marks text : List Char) : Option Nat :=
  (bytes text).findIdx? (· ∈ marks.map Char.toUInt8)

theorem ByteSearch.Correct.one_eq {search : ByteSearch} (h : search.Correct) (a : Char)
    (text : List Char) : search.one a.toUInt8 (bytes text) = offset? [a] text :=
  isFirst_iff.1 (h.one_isFirst _ _)

theorem ByteSearch.Correct.either_eq {search : ByteSearch} (h : search.Correct) (a b : Char)
    (text : List Char) : search.either a.toUInt8 b.toUInt8 (bytes text) = offset? [a, b] text :=
  isFirst_iff.1 (h.either_isFirst _ _ _)

@[simp] theorem offset?_nil (marks : List Char) : offset? marks [] = none := rfl

theorem offset?_of_mem (ha : ∀ a ∈ marks, a.toNat < 128) (hc : c ∈ marks) (text : List Char) :
    offset? marks (c :: text) = some 0 := by
  have hb : c.toUInt8 ∈ marks.map Char.toUInt8 := List.mem_map_of_mem hc
  rw [offset?, bytes_cons, utf8EncodeChar_of_ascii (ha c hc), List.singleton_append,
    List.findIdx?_cons, if_pos (decide_eq_true hb)]

theorem offset?_of_not_mem (ha : ∀ a ∈ marks, a.toNat < 128) (hc : c ∉ marks) (text : List Char) :
    offset? marks (c :: text) = (offset? marks text).map (c.utf8Size + ·) := by
  have hn : (String.utf8EncodeChar c).findIdx? (· ∈ marks.map Char.toUInt8) = none := by
    rw [List.findIdx?_eq_none_iff]
    intro b hb
    refine decide_eq_false fun hm => ?_
    obtain ⟨a, hmem, rfl⟩ := List.mem_map.1 hm
    exact hc (eq_of_byte_mem (ha a hmem) hb ▸ hmem)
  rw [offset?, bytes_cons, List.findIdx?_append, hn, Option.none_or, String.length_utf8EncodeChar,
    offset?]
  simp only [Nat.add_comm]

theorem offset?_eq_none_iff (ha : a.toNat < 128) : offset? [a] text = none ↔ a ∉ text := by
  have ha' : ∀ b ∈ [a], b.toNat < 128 := List.forall_mem_singleton.2 ha
  induction text with
  | nil => simp
  | cons c text ih =>
      by_cases hc : c = a
      · rw [offset?_of_mem ha' (List.mem_singleton.2 hc)]
        simp [hc]
      · rw [offset?_of_not_mem ha' (by simpa using hc), Option.map_eq_none_iff]
        simpa [Ne.symm hc] using ih

end FindExpr.Text
