import Mathlib.Data.List.Basic
import Mathlib.Tactic.SplitIfs
import PushLisp.Text.Utf8

/-!
# Texts and their bytes

Decoding undoes encoding, and nothing else decodes: a byte string is the text whose bytes it is, and no two
byte strings are the same text. One character is settled by arithmetic on its bytes. The bounds on the byte
after a lead byte are exactly what keeps overlong forms, surrogates and code points that are too large out.

## Main definitions

* `Utf8.Admits`: what may follow a lead byte.

## Main statements

* `Utf8.first_of_encode`, `Utf8.encode_of_first`: the first character of a byte string.
* `Utf8.decode?_eq_some_iff`: decoding is the inverse of encoding.
-/
namespace PushLisp.Utf8

variable {b c d e low high : UInt8} {n count : ℕ} {bs rest left : Bytes} {x : Char}

/-! ## Lead bytes -/

/-- A byte may follow a lead byte that calls for `count` continuation bytes. -/
def Admits (b : UInt8) (count : ℕ) (c : UInt8) : Prop :=
  ∃ low high, lead? b = some ⟨count, low, high⟩ ∧ low ≤ c ∧ c ≤ high

/-- What may follow a lead byte, by the number of bytes that it calls for. The first lead byte of a number
shuts out what fewer bytes could say, and two more shut out the surrogates and what is too large. -/
theorem admits_iff : Admits b count c ↔ (0x80 ≤ c.toNat ∧ c.toNat ≤ 0xBF) ∧
    (count = 1 ∧ 0xC2 ≤ b.toNat ∧ b.toNat ≤ 0xDF ∨
      count = 2 ∧ 0xE0 ≤ b.toNat ∧ b.toNat ≤ 0xEF ∧
        (b.toNat = 0xE0 → 0xA0 ≤ c.toNat) ∧ (b.toNat = 0xED → c.toNat ≤ 0x9F) ∨
      count = 3 ∧ 0xF0 ≤ b.toNat ∧ b.toNat ≤ 0xF4 ∧
        (b.toNat = 0xF0 → 0x90 ≤ c.toNat) ∧ (b.toNat = 0xF4 → c.toNat ≤ 0x8F)) := by
  simp only [Admits, lead?, UInt8.le_iff_toNat_le, ← UInt8.toNat_inj, Bool.and_eq_true, decide_eq_true_eq,
    UInt8.reduceToNat]
  constructor
  · rintro ⟨low, high, hlead, hlow, hhigh⟩
    split_ifs at hlead <;> obtain ⟨rfl, rfl, rfl⟩ := Lead.mk.inj (Option.some.inj hlead) <;>
      simp only [UInt8.reduceToNat] at hlow hhigh <;> omega
  · intro h
    split_ifs
    case neg => omega
    all_goals
      simp only [Option.some.injEq, Lead.mk.injEq]
      refine ⟨_, _, ⟨by omega, rfl, rfl⟩, ?_⟩
      simp only [UInt8.reduceToNat]
      omega

/-- A byte that begins several announces one more at least. -/
theorem count_ne_zero (hlead : lead? b = some ⟨count, low, high⟩) : count ≠ 0 := by
  rw [lead?] at hlead
  split_ifs at hlead <;> obtain ⟨rfl, -, -⟩ := Lead.mk.inj (Option.some.inj hlead) <;> decide

/-! ## Continuation bytes -/

/-- All bytes are continuation bytes. -/
def Tails (bs : Bytes) : Prop := ∀ c ∈ bs, 0x80 ≤ c.toNat ∧ c.toNat ≤ 0xBF

/-- Continuation bytes are taken as far as they were announced. -/
theorem continuation_append (hrest : Tails rest) (left : Bytes) :
    continuation rest.length 0x80 0xBF (rest ++ left) = (rest, left) := by
  induction rest with
  | nil => cases left <;> rfl
  | cons c rest ih =>
    obtain ⟨hc, hrest⟩ := List.forall_mem_cons.mp hrest
    have hbounds : (decide (0x80 ≤ c) && decide (c ≤ 0xBF)) = true := by
      simpa [UInt8.le_iff_toNat_le] using hc
    rw [List.cons_append, List.length_cons, continuation, if_pos hbounds, ih hrest]

/-- If as many were taken as were announced, all of them are continuation bytes. -/
theorem tails_of_continuation (h : (continuation n 0x80 0xBF bs).1.length = n) :
    Tails (continuation n 0x80 0xBF bs).1 ∧
      (continuation n 0x80 0xBF bs).1 ++ (continuation n 0x80 0xBF bs).2 = bs := by
  induction n generalizing bs with
  | zero => cases bs <;> simp [continuation, Tails]
  | succ n ih =>
    cases bs with
    | nil => cases h
    | cons c rest =>
      rw [continuation] at h ⊢
      by_cases hc : (decide (0x80 ≤ c) && decide (c ≤ 0xBF)) = true
      · rw [if_pos hc] at h ⊢
        obtain ⟨htails, heq⟩ := ih (Nat.succ.inj h)
        refine ⟨List.forall_mem_cons.mpr ⟨?_, htails⟩, congrArg (c :: ·) heq⟩
        simpa [UInt8.le_iff_toNat_le] using hc
      · rw [if_neg hc] at h
        cases h

/-! ## The first character -/

/-- A byte below 0x80 is a character by itself. -/
theorem first_of_lt (hb : b < 0x80) (bs : Bytes) :
    first b bs = (.scalar (Char.ofNat b.toNat), bs) := if_pos hb

/-- A byte that begins several is taken together with them. -/
theorem first_of_admits (hc : Admits b (rest.length + 1) c) (hrest : Tails rest) (left : Bytes) :
    first b (c :: (rest ++ left)) = (.scalar (Char.ofNat (codePoint b (rest.length + 1) (c :: rest))),
      left) := by
  have hb : ¬ b < 0x80 := by
    have hcases := admits_iff.mp hc
    simp only [UInt8.lt_iff_toNat_lt, UInt8.reduceToNat]
    omega
  obtain ⟨low, high, hlead, hlow, hhigh⟩ := hc
  have hbounds : (decide (low ≤ c) && decide (c ≤ high)) = true := by simp [hlow, hhigh]
  simp only [first, if_neg hb, hlead, continuation, if_pos hbounds, continuation_append hrest,
    List.length_cons, if_true]

/-- A character of several bytes has been announced by its first byte. -/
theorem admits_of_first (hb : ¬ b < 0x80) (h : first b bs = (.scalar x, left)) :
    ∃ c rest, Admits b (rest.length + 1) c ∧ Tails rest ∧ bs = c :: (rest ++ left) ∧
      x = Char.ofNat (codePoint b (rest.length + 1) (c :: rest)) := by
  rw [first, if_neg hb] at h
  split at h
  · cases h
  · rename_i count low high hlead
    obtain ⟨n, rfl⟩ := Nat.exists_eq_succ_of_ne_zero (count_ne_zero hlead)
    dsimp only at h
    split at h
    · rename_i hlength
      cases bs with
      | nil => cases hlength
      | cons c bs =>
        rw [continuation] at h hlength
        by_cases hc : (decide (low ≤ c) && decide (c ≤ high)) = true
        · rw [if_pos hc] at h hlength
          have hn : (continuation n 0x80 0xBF bs).1.length = n := Nat.succ.inj hlength
          obtain ⟨htails, heq⟩ := tails_of_continuation hn
          rw [Prod.mk.injEq, Piece.scalar.injEq] at h
          obtain ⟨rfl, rfl⟩ := h
          rw [Bool.and_eq_true, decide_eq_true_eq, decide_eq_true_eq] at hc
          refine ⟨c, _, ⟨low, high, ?_, hc⟩, htails, by rw [heq], ?_⟩
          · rw [hn]
            exact hlead
          · rw [hn]
        · rw [if_neg hc] at hlength
          cases hlength
    · cases h

/-! ## The bytes of a character -/

theorem toNat_and_63 (c : UInt8) : (c &&& 0x3F).toNat = c.toNat % 64 := by
  rw [UInt8.toNat_and]
  exact Nat.and_two_pow_sub_one_eq_mod c.toNat 6

theorem toNat_ofNat (h : n.isValidChar) : (Char.ofNat n).toNat = n := by
  rw [Char.ofNat, dif_pos h]
  rfl

theorem ofNat_eq_of_mod (h : n % 256 = b.toNat) : UInt8.ofNat n = b := by
  apply UInt8.toNat_inj.mp
  rw [UInt8.toNat_ofNat', ← h]

theorem encode_of_le (hx : x.toNat ≤ 0x7F) : String.utf8EncodeChar x = [UInt8.ofNat x.toNat] := if_pos hx

theorem encode_of_lt (hb : b < 0x80) : String.utf8EncodeChar (Char.ofNat b.toNat) = [b] := by
  have hlt : b.toNat < 0x80 := UInt8.lt_iff_toNat_lt.mp hb
  have hval : (Char.ofNat b.toNat).toNat = b.toNat := toNat_ofNat (.inl (by omega))
  rw [encode_of_le (by omega), hval, UInt8.ofNat_toNat]

/-- The two bytes of a character of eleven bits. -/
theorem encode_two (hc : Admits b 1 c) : String.utf8EncodeChar (Char.ofNat (codePoint b 1 [c])) = [b, c] := by
  have hbounds : (0x80 ≤ c.toNat ∧ c.toNat ≤ 0xBF) ∧ 0xC2 ≤ b.toNat ∧ b.toNat ≤ 0xDF := by
    simpa using admits_iff.mp hc
  have hn : codePoint b 1 [c] = b.toNat % 32 * 64 + c.toNat % 64 := by
    simp only [codePoint, List.foldl, toNat_and_63, Nat.reduceSub, Nat.reduceShiftLeft]
  generalize codePoint b 1 [c] = n at *
  have hval : (Char.ofNat n).val.toNat = n := toNat_ofNat (.inl (by omega))
  simp only [String.utf8EncodeChar, hval]
  rw [if_neg (by omega), if_pos (by omega), ofNat_eq_of_mod (b := b) (by omega),
    ofNat_eq_of_mod (b := c) (by omega)]

/-- The three bytes of one of sixteen bits. The surrogates are left out. -/
theorem encode_three (hc : Admits b 2 c) (hd : 0x80 ≤ d.toNat ∧ d.toNat ≤ 0xBF) :
    String.utf8EncodeChar (Char.ofNat (codePoint b 2 [c, d])) = [b, c, d] := by
  have hbounds : (0x80 ≤ c.toNat ∧ c.toNat ≤ 0xBF) ∧ 0xE0 ≤ b.toNat ∧ b.toNat ≤ 0xEF ∧
      (b.toNat = 0xE0 → 0xA0 ≤ c.toNat) ∧ (b.toNat = 0xED → c.toNat ≤ 0x9F) := by
    simpa using admits_iff.mp hc
  have hn : codePoint b 2 [c, d] = (b.toNat % 16 * 64 + c.toNat % 64) * 64 + d.toNat % 64 := by
    simp only [codePoint, List.foldl, toNat_and_63, Nat.reduceSub, Nat.reduceShiftLeft]
  generalize codePoint b 2 [c, d] = n at *
  -- Without the bounds on the byte after the lead byte, this could be a surrogate or fit into two bytes.
  have hvalid : n.isValidChar := by
    rw [Nat.isValidChar]
    omega
  have hval : (Char.ofNat n).val.toNat = n := toNat_ofNat hvalid
  simp only [String.utf8EncodeChar, hval]
  rw [if_neg (by omega), if_neg (by omega), if_pos (by omega), ofNat_eq_of_mod (b := b) (by omega),
    ofNat_eq_of_mod (b := c) (by omega), ofNat_eq_of_mod (b := d) (by omega)]

/-- The four bytes of one of twenty-one bits. -/
theorem encode_four (hc : Admits b 3 c) (hd : 0x80 ≤ d.toNat ∧ d.toNat ≤ 0xBF)
    (he : 0x80 ≤ e.toNat ∧ e.toNat ≤ 0xBF) :
    String.utf8EncodeChar (Char.ofNat (codePoint b 3 [c, d, e])) = [b, c, d, e] := by
  have hbounds : (0x80 ≤ c.toNat ∧ c.toNat ≤ 0xBF) ∧ 0xF0 ≤ b.toNat ∧ b.toNat ≤ 0xF4 ∧
      (b.toNat = 0xF0 → 0x90 ≤ c.toNat) ∧ (b.toNat = 0xF4 → c.toNat ≤ 0x8F) := by
    simpa using admits_iff.mp hc
  have hn : codePoint b 3 [c, d, e] =
      ((b.toNat % 8 * 64 + c.toNat % 64) * 64 + d.toNat % 64) * 64 + e.toNat % 64 := by
    simp only [codePoint, List.foldl, toNat_and_63, Nat.reduceSub, Nat.reduceShiftLeft]
  generalize codePoint b 3 [c, d, e] = n at *
  have hvalid : n.isValidChar := by
    rw [Nat.isValidChar]
    omega
  have hval : (Char.ofNat n).val.toNat = n := toNat_ofNat hvalid
  simp only [String.utf8EncodeChar, hval]
  rw [if_neg (by omega), if_neg (by omega), if_neg (by omega), ofNat_eq_of_mod (b := b) (by omega),
    ofNat_eq_of_mod (b := c) (by omega), ofNat_eq_of_mod (b := d) (by omega),
      ofNat_eq_of_mod (b := e) (by omega)]

/-- A lead byte and the bytes that it calls for are those of a character. -/
theorem encode_codePoint (hc : Admits b (rest.length + 1) c) (hrest : Tails rest) :
    String.utf8EncodeChar (Char.ofNat (codePoint b (rest.length + 1) (c :: rest))) = b :: c :: rest := by
  rcases rest with _ | ⟨d, _ | ⟨e, _ | ⟨_, _⟩⟩⟩
  · exact encode_two hc
  · exact encode_three hc (hrest d List.mem_cons_self)
  · exact encode_four hc (hrest d List.mem_cons_self) (hrest e (List.mem_cons_of_mem d List.mem_cons_self))
  · have hbounds := admits_iff.mp hc
    simp only [List.length_cons] at hbounds
    omega

/-- The bytes of a character beyond the first 128 are a lead byte and what it calls for. -/
theorem exists_admits (hx : 0x7F < x.toNat) :
    ∃ b c rest, String.utf8EncodeChar x = b :: c :: rest ∧ Admits b (rest.length + 1) c ∧ Tails rest := by
  have hvalid : x.val.toNat < 0xD800 ∨ 0xDFFF < x.val.toNat ∧ x.val.toNat < 0x110000 := x.valid
  rw [Char.toNat] at hx
  generalize hn : x.val.toNat = n at *
  simp only [String.utf8EncodeChar, hn]
  rw [if_neg (by omega)]
  by_cases htwo : n ≤ 0x7FF
  · rw [if_pos htwo]
    refine ⟨_, _, [], rfl, admits_iff.mpr ⟨?_, .inl ⟨rfl, ?_⟩⟩, List.forall_mem_nil _⟩ <;>
      simp only [UInt8.toNat_ofNat'] <;> omega
  rw [if_neg htwo]
  by_cases hthree : n ≤ 0xFFFF
  · rw [if_pos hthree]
    refine ⟨_, _, [_], rfl, admits_iff.mpr ⟨?_, .inr (.inl ⟨rfl, ?_⟩)⟩, List.forall_mem_singleton.mpr ?_⟩ <;>
      simp only [UInt8.toNat_ofNat'] <;> omega
  rw [if_neg hthree]
  refine ⟨_, _, [_, _], rfl, admits_iff.mpr ⟨?_, .inr (.inr ⟨rfl, ?_⟩)⟩,
      List.forall_mem_cons.mpr ⟨?_, List.forall_mem_singleton.mpr ?_⟩⟩ <;>
    simp only [UInt8.toNat_ofNat'] <;> omega

theorem eq_of_encode_eq {y : Char} (h : String.utf8EncodeChar x = String.utf8EncodeChar y) : x = y := by
  have hstring : String.ofList [x] = String.ofList [y] := by
    rw [← String.toByteArray_inj, String.toByteArray_ofList, String.toByteArray_ofList]
    simp [List.utf8Encode, h]
  have hlist := congrArg String.toList hstring
  rw [String.toList_ofList, String.toList_ofList] at hlist
  exact List.singleton_inj.mp hlist

/-- The bytes of a character, whatever follows them, are read as that character. -/
theorem first_of_encode (hx : String.utf8EncodeChar x = b :: bs) (left : Bytes) :
    first b (bs ++ left) = (.scalar x, left) := by
  by_cases hlt : x.toNat ≤ 0x7F
  · rw [encode_of_le hlt, List.cons.injEq] at hx
    obtain ⟨rfl, rfl⟩ := hx
    have hnat : (UInt8.ofNat x.toNat).toNat = x.toNat := by
      rw [UInt8.toNat_ofNat', Nat.mod_eq_of_lt (by omega)]
    have hb : UInt8.ofNat x.toNat < 0x80 := by
      simp only [UInt8.lt_iff_toNat_lt, hnat, UInt8.reduceToNat]
      omega
    rw [first_of_lt hb, hnat, Char.ofNat_toNat]
    rfl
  · obtain ⟨b', c, rest, henc, hc, hrest⟩ := exists_admits (Nat.lt_of_not_le hlt)
    obtain rfl := eq_of_encode_eq ((encode_codePoint hc hrest).trans henc.symm)
    rw [hx, List.cons.injEq] at henc
    obtain ⟨rfl, rfl⟩ := henc
    exact first_of_admits hc hrest left

/-- What is read as a character is its bytes. -/
theorem encode_of_first (h : first b bs = (.scalar x, left)) : b :: bs = String.utf8EncodeChar x ++ left := by
  by_cases hb : b < 0x80
  · rw [first_of_lt hb, Prod.mk.injEq, Piece.scalar.injEq] at h
    obtain ⟨rfl, rfl⟩ := h
    rw [encode_of_lt hb]
    rfl
  · obtain ⟨c, rest, hc, hrest, rfl, rfl⟩ := admits_of_first hb h
    rw [encode_codePoint hc hrest]
    rfl

/-! ## Texts -/

/-- A property of byte strings that goes from what follows the first piece to the whole holds of all. -/
theorem induction_on_first {P : Bytes → Prop} (nil : P []) (cons : ∀ b bs, P (first b bs).2 → P (b :: bs))
    (bs : Bytes) : P bs := by
  induction hlength : bs.length using Nat.strongRecOn generalizing bs with
  | ind n ih =>
    cases bs with
    | nil => exact nil
    | cons b bs =>
      have hlt : (first b bs).2.length < n := hlength ▸ Nat.lt_succ_of_le (length_first_le b bs)
      exact cons b bs (ih _ hlt _ rfl)

theorem piecesAfter_eq (found : List Piece) (bs : Bytes) :
    piecesAfter found bs = found.reverse ++ piecesAfter [] bs := by
  induction bs using induction_on_first generalizing found with
  | nil => simp [piecesAfter]
  | cons b bs ih =>
    rw [piecesAfter, piecesAfter, ih, ih [_]]
    simp

/-- Bytes are taken apart character by character. -/
theorem pieces_cons (b : UInt8) (bs : Bytes) :
    pieces (b :: bs) = (first b bs).1 :: pieces (first b bs).2 := by
  rw [pieces, piecesAfter, piecesAfter_eq]
  rfl

theorem eq_scalar_of_toChar? {piece : Piece} (h : piece.toChar? = some x) : piece = .scalar x := by
  cases piece with
  | scalar y => rw [Option.some.inj h]
  | broken bytes => cases h

/-- The characters of a byte string are its first one and those of what follows it. -/
theorem chars?_cons (b : UInt8) (bs : Bytes) :
    chars? (b :: bs) = (first b bs).1.toChar?.bind fun x => (chars? (first b bs).2).map (x :: ·) := by
  rw [chars?, pieces_cons, List.mapM_cons]
  cases (first b bs).1.toChar? with
  | none => rfl
  | some x => cases h : chars? (first b bs).2 <;> simp_all [chars?]

/-- A text is read back from its bytes. -/
theorem chars?_encode (xs : List Char) : chars? (xs.flatMap String.utf8EncodeChar) = some xs := by
  induction xs with
  | nil => simp [chars?, pieces, piecesAfter]
  | cons x xs ih =>
    obtain ⟨b, bs, hx⟩ := List.exists_cons_of_ne_nil (String.utf8EncodeChar_ne_nil (c := x))
    rw [List.flatMap_cons, hx, List.cons_append, chars?_cons, first_of_encode hx]
    simp [Piece.toChar?, ih]

/-- Bytes that are read as a text are the bytes of the text. -/
theorem eq_of_chars? {xs : List Char} (h : chars? bs = some xs) : bs = xs.flatMap String.utf8EncodeChar := by
  induction bs using induction_on_first generalizing xs with
  | nil =>
    obtain rfl : xs = [] := by simpa [chars?, pieces, piecesAfter] using h.symm
    rfl
  | cons b bs ih =>
    rw [chars?_cons, Option.bind_eq_some_iff] at h
    obtain ⟨x, hx, h⟩ := h
    obtain ⟨ys, hys, rfl⟩ := Option.map_eq_some_iff.mp h
    have hfirst : first b bs = (.scalar x, (first b bs).2) := Prod.ext (eq_scalar_of_toChar? hx) rfl
    rw [List.flatMap_cons, ← ih hys]
    exact encode_of_first hfirst

theorem ofString_eq (s : String) : Bytes.ofString s = s.toList.flatMap String.utf8EncodeChar := by
  conv_lhs => rw [← String.ofList_toList (s := s)]
  rw [Bytes.ofString, String.toUTF8_eq_toByteArray, String.toByteArray_ofList, List.utf8Encode,
    List.toList_data_toByteArray]

/-- A byte string is the text whose bytes it is. -/
theorem decode?_eq_some_iff {s : String} : decode? bs = some s ↔ bs = Bytes.ofString s := by
  rw [decode?, Option.map_eq_some_iff, ofString_eq]
  constructor
  · rintro ⟨xs, hxs, rfl⟩
    rw [String.toList_ofList]
    exact eq_of_chars? hxs
  · rintro rfl
    exact ⟨s.toList, chars?_encode s.toList, String.ofList_toList⟩

end PushLisp.Utf8
