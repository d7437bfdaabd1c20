import Mathlib.Tactic.SplitIfs
import SchemaTypes.Text.Utf8

/-!
# What UTF-8 decodes

The bytes of a text are those of its characters, each in its shortest form. Decoding undoes this, and
nothing else has a decoding: a list of bytes is decoded exactly if it is the encoding of a text, and
then to this text, which holds no surrogates.
-/

namespace SchemaTypes.Text

/-- The bytes of a character come before those of the rest. -/
theorem encodeUtf8?_scalar_cons (c : Char) {text : List CodePoint} {bytes : List UInt8}
    (h : encodeUtf8? text = some bytes) :
    encodeUtf8? (.scalar c :: text) = some (String.utf8EncodeChar c ++ bytes) := by
  rw [encodeUtf8?, h, Option.map_some]

section Bytes

variable {n m : Nat} {b : UInt8}

/-- Six bits in a continuation byte extend a payload. -/
theorem extend_ofNat (payload n : Nat) :
    extend payload (UInt8.ofNat (n % 64 + 128)) = some (payload * 64 + n % 64) := by
  have hbyte : (UInt8.ofNat (n % 64 + 128)).toNat = n % 64 + 128 :=
    UInt8.toNat_ofNat_of_lt' (by change _ < 256; omega)
  rw [extend, continuation?, hbyte, if_pos (by omega), Nat.add_sub_cancel, Option.map_some]

/-- A payload is extended by a continuation byte only, which holds its last six bits. -/
theorem extend_eq_some (h : extend n b = some m) :
    m / 64 = n ∧ b = UInt8.ofNat (m % 64 + 128) := by
  rw [extend, continuation?] at h
  split at h
  next hb =>
    rw [Option.map_some, Option.some.injEq] at h
    refine ⟨by omega, UInt8.toNat_inj.1 ?_⟩
    rw [UInt8.toNat_ofNat_of_lt' (by change _ < 256; omega)]
    omega
  next => cases h

/-- A code point that is no surrogate is that of its character. -/
theorem toNat_charOfNat (h : n.isValidChar) : (Char.ofNat n).toNat = n := by
  rw [Char.ofNat, dif_pos h]
  rfl

/-- The code point of a character gives back the character. -/
theorem scalarAbove?_toNat {least : Nat} {c : Char} (h : least ≤ c.toNat) :
    scalarAbove? least c.toNat = some (.scalar c) := by
  rw [scalarAbove?, if_pos ⟨h, c.valid⟩, Char.ofNat_toNat]

/-- The character of a code point has this code point, which is no less than the least one. -/
theorem scalarAbove?_eq_some {least : Nat} {p : CodePoint} (h : scalarAbove? least n = some p) :
    ∃ c : Char, p = .scalar c ∧ least ≤ n ∧ c.toNat = n := by
  rw [scalarAbove?] at h
  split at h
  next hn =>
    cases h
    exact ⟨_, rfl, hn.1, toNat_charOfNat hn.2⟩
  next => cases h

end Bytes

/-- The bytes of a character, by its code point. -/
theorem utf8EncodeChar_eq (c : Char) :
    String.utf8EncodeChar c =
      if c.toNat < 0x80 then [UInt8.ofNat c.toNat]
      else if c.toNat < 0x800 then
        [UInt8.ofNat (c.toNat / 64 + 0xc0), UInt8.ofNat (c.toNat % 64 + 128)]
      else if c.toNat < 0x10000 then
        [UInt8.ofNat (c.toNat / 64 / 64 + 0xe0), UInt8.ofNat (c.toNat / 64 % 64 + 128),
          UInt8.ofNat (c.toNat % 64 + 128)]
      else
        [UInt8.ofNat (c.toNat / 64 / 64 / 64 + 0xf0), UInt8.ofNat (c.toNat / 64 / 64 % 64 + 128),
          UInt8.ofNat (c.toNat / 64 % 64 + 128), UInt8.ofNat (c.toNat % 64 + 128)] := by
  have hvalue : c.val.toNat = c.toNat := rfl
  have hlast : c.toNat < 0x110000 := CodePoint.toNat_lt c
  have htwice : c.toNat / 4096 = c.toNat / 64 / 64 := by omega
  have hthrice : c.toNat / 262144 = c.toNat / 64 / 64 / 64 := by omega
  delta String.utf8EncodeChar
  simp only [hvalue, htwice, hthrice]
  by_cases hone : c.toNat < 0x80
  · rw [if_pos (by omega), if_pos hone]
  · rw [if_neg (by omega), if_neg hone]
    by_cases htwo : c.toNat < 0x800
    · rw [if_pos (by omega), if_pos htwo, Nat.mod_eq_of_lt (by omega : c.toNat / 64 < 32)]
    · rw [if_neg (by omega), if_neg htwo]
      by_cases hthree : c.toNat < 0x10000
      · rw [if_pos (by omega), if_pos hthree,
          Nat.mod_eq_of_lt (by omega : c.toNat / 64 / 64 < 16)]
      · rw [if_neg (by omega), if_neg hthree,
          Nat.mod_eq_of_lt (by omega : c.toNat / 64 / 64 / 64 < 8)]

/-- The bytes of a character are decoded to the character, whatever follows them. -/
theorem decodeUtf8?_utf8EncodeChar_append (c : Char) (rest : List UInt8) :
    decodeUtf8? (String.utf8EncodeChar c ++ rest) = (decodeUtf8? rest).map (.scalar c :: ·) := by
  have hlast : c.toNat < 0x110000 := CodePoint.toNat_lt c
  have hlead : ∀ {n : Nat}, n < 256 → (UInt8.ofNat n).toNat = n := UInt8.toNat_ofNat_of_lt'
  rw [utf8EncodeChar_eq, Option.map_eq_bind]
  split_ifs with hone htwo hthree
  · rw [List.cons_append, List.nil_append, decodeUtf8?.eq_def]
    simp only [hlead (by omega : c.toNat < 256), if_pos hone, Char.ofNat_toNat, Option.map_eq_bind]
  · have hpoint : c.toNat / 64 * 64 + c.toNat % 64 = c.toNat := by omega
    rw [List.cons_append, List.cons_append, List.nil_append, decodeUtf8?.eq_def]
    simp only [hlead (by omega : c.toNat / 64 + 0xc0 < 256)]
    rw [if_neg (by omega), if_neg (by omega), if_pos (by omega), Nat.add_sub_cancel, extend_ofNat,
      hpoint]
    simp only [bind, Option.bind_some, scalarAbove?_toNat (by omega : 0x80 ≤ c.toNat)]
    rfl
  · have hpoint : (c.toNat / 64 / 64 * 64 + c.toNat / 64 % 64) * 64 + c.toNat % 64 = c.toNat := by
      omega
    simp only [List.cons_append, List.nil_append]
    rw [decodeUtf8?.eq_def]
    simp only [hlead (by omega : c.toNat / 64 / 64 + 0xe0 < 256)]
    rw [if_neg (by omega), if_neg (by omega), if_neg (by omega), if_pos (by omega),
      Nat.add_sub_cancel, extend_ofNat]
    simp only [bind, Option.bind_some, extend_ofNat, hpoint,
      scalarAbove?_toNat (by omega : 0x800 ≤ c.toNat)]
    rfl
  · have hpoint : ((c.toNat / 64 / 64 / 64 * 64 + c.toNat / 64 / 64 % 64) * 64 +
        c.toNat / 64 % 64) * 64 + c.toNat % 64 = c.toNat := by omega
    simp only [List.cons_append, List.nil_append]
    rw [decodeUtf8?.eq_def]
    simp only [hlead (by omega : c.toNat / 64 / 64 / 64 + 0xf0 < 256)]
    rw [if_neg (by omega), if_neg (by omega), if_neg (by omega), if_neg (by omega),
      if_pos (by omega), Nat.add_sub_cancel, extend_ofNat]
    simp only [bind, Option.bind_some, extend_ofNat, hpoint,
      scalarAbove?_toNat (by omega : 0x10000 ≤ c.toNat)]
    rfl

/-- A text is decoded from its bytes. -/
theorem decodeUtf8?_of_encodeUtf8? {bytes : List UInt8} {text : List CodePoint}
    (h : encodeUtf8? text = some bytes) : decodeUtf8? bytes = some text := by
  fun_induction encodeUtf8? text generalizing bytes with
  | case1 =>
    cases h
    rfl
  | case2 c text ih =>
    obtain ⟨others, hothers, rfl⟩ := Option.map_eq_some_iff.1 h
    rw [decodeUtf8?_utf8EncodeChar_append, ih hothers, Option.map_some]
  | case3 => cases h

/-- What is decoded are the bytes of the text it is decoded to. -/
theorem encodeUtf8?_of_decodeUtf8? {bytes : List UInt8} {text : List CodePoint}
    (h : decodeUtf8? bytes = some text) : encodeUtf8? text = some bytes := by
  fun_induction decodeUtf8? bytes generalizing text with
  | case1 =>
    cases h
    rfl
  | case2 a rest hone ih =>
    obtain ⟨text, htext, rfl⟩ := Option.map_eq_some_iff.1 h
    have hchar : (Char.ofNat a.toNat).toNat = a.toNat := toNat_charOfNat (.inl (by omega))
    rw [encodeUtf8?_scalar_cons _ (ih htext), utf8EncodeChar_eq, hchar, if_pos hone,
      UInt8.ofNat_toNat]
    rfl
  | case3 => cases h
  | case4 a _ _ htwo b rest ih =>
    simp only [bind, Option.bind_eq_some_iff] at h
    obtain ⟨n, hn, _, hc, text, htext, ⟨⟩⟩ := h
    obtain ⟨c, rfl, hleast, hchar⟩ := scalarAbove?_eq_some hc
    obtain ⟨hpayload, rfl⟩ := extend_eq_some hn
    have hlead : n / 64 + 0xc0 = a.toNat := by omega
    rw [encodeUtf8?_scalar_cons c (ih htext), utf8EncodeChar_eq, hchar, if_neg (by omega),
      if_pos (by omega), hlead, UInt8.ofNat_toNat]
    rfl
  | case5 => cases h
  | case6 a _ _ _ hthree b c rest ih =>
    simp only [bind, Option.bind_eq_some_iff] at h
    obtain ⟨m, hm, n, hn, _, hc, text, htext, ⟨⟩⟩ := h
    obtain ⟨ch, rfl, hleast, hchar⟩ := scalarAbove?_eq_some hc
    obtain ⟨rfl, rfl⟩ := extend_eq_some hn
    obtain ⟨hpayload, rfl⟩ := extend_eq_some hm
    have hlead : n / 64 / 64 + 0xe0 = a.toNat := by omega
    rw [encodeUtf8?_scalar_cons ch (ih htext), utf8EncodeChar_eq, hchar, if_neg (by omega),
      if_neg (by omega), if_pos (by omega), hlead, UInt8.ofNat_toNat]
    rfl
  | case7 => cases h
  | case8 a _ _ _ _ hfour b c d rest ih =>
    simp only [bind, Option.bind_eq_some_iff] at h
    obtain ⟨l, hl, m, hm, n, hn, _, hc, text, htext, ⟨⟩⟩ := h
    obtain ⟨ch, rfl, hleast, hchar⟩ := scalarAbove?_eq_some hc
    obtain ⟨rfl, rfl⟩ := extend_eq_some hn
    obtain ⟨rfl, rfl⟩ := extend_eq_some hm
    obtain ⟨hpayload, rfl⟩ := extend_eq_some hl
    have hlead : n / 64 / 64 / 64 + 0xf0 = a.toNat := by omega
    rw [encodeUtf8?_scalar_cons ch (ih htext), utf8EncodeChar_eq, hchar, if_neg (by omega),
      if_neg (by omega), if_neg (by omega), hlead, UInt8.ofNat_toNat]
    rfl
  | case9 => cases h
  | case10 => cases h

/-- Exactly the bytes of a text are decoded to it. -/
theorem decodeUtf8?_eq_some_iff {bytes : List UInt8} {text : List CodePoint} :
    decodeUtf8? bytes = some text ↔ encodeUtf8? text = some bytes :=
  ⟨encodeUtf8?_of_decodeUtf8?, decodeUtf8?_of_encodeUtf8?⟩

/-- What has no decoding are the bytes of no text. -/
theorem decodeUtf8?_eq_none_iff {bytes : List UInt8} :
    decodeUtf8? bytes = none ↔ ∀ text, encodeUtf8? text ≠ some bytes := by
  simp only [Option.eq_none_iff_forall_ne_some, ne_eq, decodeUtf8?_eq_some_iff]

end SchemaTypes.Text
