import TypeFlow.Text.Utf8

/-!
# Texts and their bytes

A text reads back from its bytes (`ofBytes_bytes`): the bytes of a character are one rune, whatever
follows them. The bytes of a text may be cut before an ASCII byte (`IsText.cut`) and after ASCII bytes
(`IsText.of_ascii_append`), because such a byte is a character of its own. This is how a reader that works
on bytes takes a text apart into texts.
-/

namespace TypeFlow.Text

/-! ### Bytes of characters -/

theorem toList_loop (bs : ByteArray) (i : Nat) (r : List UInt8) :
    ByteArray.toList.loop bs i r = r.reverse ++ bs.data.toList.drop i := by
  fun_induction ByteArray.toList.loop bs i r with
  | case1 i r hi ih =>
    have hdata : i < bs.data.toList.length := by simpa using hi
    have hget : bs.get! i = bs.data.toList[i] := by
      rw [Array.getElem_toList]
      exact getElem!_pos bs.data i hi
    rw [ih, hget, List.reverse_cons, List.append_assoc, List.singleton_append,
      ← List.drop_eq_getElem_cons hdata]
  | case2 i r hi =>
    rw [List.drop_eq_nil_of_le (by simpa using Nat.le_of_not_lt hi), List.append_nil]

/-- The bytes of a text are those of its characters. -/
theorem bytes_eq (s : String) : bytes s = s.toList.flatMap String.utf8EncodeChar := by
  rw [bytes, String.toUTF8_eq_toByteArray, ← String.utf8Encode_toList, ByteArray.toList, toList_loop,
    List.utf8Encode, List.toList_data_toByteArray]
  rfl

@[simp] theorem bytes_append (s r : String) : bytes (s ++ r) = bytes s ++ bytes r := by
  rw [bytes_eq, bytes_eq, bytes_eq, String.toList_append, List.flatMap_append]

@[simp] theorem bytes_empty : bytes "" = [] := by
  rw [bytes_eq]
  rfl

/-- Bytes of the same characters are bytes of the same text. -/
theorem bytes_ofList (cs : List Char) : bytes (String.ofList cs) = cs.flatMap String.utf8EncodeChar := by
  rw [bytes_eq, String.toList_ofList]

/-! ### Reading back -/

theorem toNat_ofNat {n : Nat} (h : n < 256) : (UInt8.ofNat n).toNat = n := by
  rw [UInt8.toNat_ofNat']
  omega

theorem continuation?_encoded (n : Nat) :
    continuation? (UInt8.ofNat (n % 0x40 + 0x80)) = some (n % 0x40) := by
  rw [continuation?, toNat_ofNat (by omega), if_pos (by omega)]
  congr 1
  omega

theorem leading?_one {n : Nat} (h : n ≤ 0x7F) : leading? (UInt8.ofNat n) = some (n, 0) := by
  simp only [leading?, toNat_ofNat (show n < 256 by omega)]
  rw [if_pos (by omega)]

theorem leading?_two {n : Nat} (h : 2 ≤ n) (h' : n < 0x20) :
    leading? (UInt8.ofNat (n % 0x20 + 0xC0)) = some (n, 1) := by
  simp only [leading?, toNat_ofNat (show n % 0x20 + 0xC0 < 256 by omega)]
  rw [if_neg (by omega), if_neg (by omega), if_pos (by omega)]
  congr 2
  omega

theorem leading?_three {n : Nat} (h : n < 0x10) :
    leading? (UInt8.ofNat (n % 0x10 + 0xE0)) = some (n, 2) := by
  simp only [leading?, toNat_ofNat (show n % 0x10 + 0xE0 < 256 by omega)]
  rw [if_neg (by omega), if_neg (by omega), if_neg (by omega), if_pos (by omega)]
  congr 2
  omega

theorem leading?_four {n : Nat} (h : n < 5) :
    leading? (UInt8.ofNat (n % 0x08 + 0xF0)) = some (n, 3) := by
  simp only [leading?, toNat_ofNat (show n % 0x08 + 0xF0 < 256 by omega)]
  rw [if_neg (by omega), if_neg (by omega), if_neg (by omega), if_neg (by omega), if_pos (by omega)]
  congr 2
  omega

/-- A complete sequence that is neither overlong nor a surrogate is a character. -/
theorem nextRune_eq {b : UInt8} {bs rest : List UInt8} {bits k : Nat} {c : Char}
    (hlead : leading? b = some (bits, k)) (hcollect : collect? k bits bs = some (c.toNat, rest))
    (hleast : leastFor k ≤ c.toNat) : nextRune b bs = (.char c, rest) := by
  have hvalid : c.toNat < 0xD800 ∨ (0xDFFF < c.toNat ∧ c.toNat < 0x110000) := c.valid
  simp only [nextRune, hlead, hcollect]
  rw [if_pos ⟨hleast, hvalid⟩, Char.ofNat_toNat]

/-- The bytes of a character are one rune, whatever follows them. -/
theorem nextRune_encode (c : Char) (rest : List UInt8) :
    ∃ b bs, String.utf8EncodeChar c = b :: bs ∧ nextRune b (bs ++ rest) = (.char c, rest) := by
  have hlt : c.toNat < 0x110000 := by
    have hvalid : c.toNat < 0xD800 ∨ (0xDFFF < c.toNat ∧ c.toNat < 0x110000) := c.valid
    omega
  have hval : c.val.toNat = c.toNat := rfl
  unfold String.utf8EncodeChar
  simp only [hval]
  -- by the number of bytes
  split
  · rename_i h₁
    exact ⟨_, _, rfl, nextRune_eq (leading?_one h₁) rfl (Nat.zero_le _)⟩
  split
  · rename_i h₁ h₂
    refine ⟨_, _, rfl, nextRune_eq (leading?_two (by omega) (by omega)) ?_ ?_⟩
    · simp only [collect?, List.cons_append, List.nil_append, continuation?_encoded]
      congr 2
      omega
    · simp only [leastFor]
      omega
  split
  · rename_i h₂ h₃
    refine ⟨_, _, rfl, nextRune_eq (leading?_three (by omega)) ?_ ?_⟩
    · simp only [collect?, List.cons_append, List.nil_append, continuation?_encoded]
      congr 2
      omega
    · simp only [leastFor]
      omega
  · rename_i h₃
    refine ⟨_, _, rfl, nextRune_eq (leading?_four (by omega)) ?_ ?_⟩
    · simp only [collect?, List.cons_append, List.nil_append, continuation?_encoded]
      congr 2
      omega
    · simp only [leastFor]
      omega

theorem runesUpTo_encode (cs : List Char) {fuel : Nat} (h : cs.length ≤ fuel) :
    runesUpTo fuel (cs.flatMap String.utf8EncodeChar) = cs.map .char := by
  induction cs generalizing fuel with
  | nil => cases fuel <;> rfl
  | cons c cs ih =>
    obtain ⟨b, bs, henc, hnext⟩ := nextRune_encode c (cs.flatMap String.utf8EncodeChar)
    match fuel, h with
    | fuel + 1, h =>
      rw [List.flatMap_cons, henc, List.cons_append, runesUpTo, hnext, List.map_cons]
      simp only
      rw [ih (by simpa using h)]

theorem length_le_encode (cs : List Char) : cs.length ≤ (cs.flatMap String.utf8EncodeChar).length := by
  induction cs with
  | nil => exact Nat.le_refl 0
  | cons c cs ih =>
    obtain ⟨b, bs, henc, -⟩ := nextRune_encode c []
    rw [List.flatMap_cons, henc, List.length_append, List.length_cons, List.length_cons]
    omega

/-- **A text reads back from its bytes.** -/
@[simp] theorem ofBytes_bytes (s : String) : ofBytes (bytes s) = s := by
  rw [ofBytes, runes, bytes_eq, runesUpTo_encode _ (length_le_encode _), List.map_map]
  simp only [Function.comp_def, List.map_id_fun', id_eq, String.ofList_toList]

/-! ### Cutting a text between bytes -/

/-- The bytes of some text. -/
def IsText (bs : List UInt8) : Prop :=
  ∃ s, bs = bytes s

/-- Nothing, or a byte that is a character of its own. -/
def AsciiFirst (bs : List UInt8) : Prop :=
  ∀ b ∈ bs.head?, b.toNat < 0x80

theorem isText_iff {bs : List UInt8} :
    IsText bs ↔ ∃ cs : List Char, bs = cs.flatMap String.utf8EncodeChar := by
  constructor
  · rintro ⟨s, rfl⟩
    exact ⟨s.toList, bytes_eq s⟩
  · rintro ⟨cs, rfl⟩
    exact ⟨String.ofList cs, (bytes_ofList cs).symm⟩

theorem IsText.bytes_ofBytes {bs : List UInt8} (h : IsText bs) : bytes (ofBytes bs) = bs := by
  obtain ⟨s, rfl⟩ := h
  rw [ofBytes_bytes]

/-- All bytes of a character but the first belong to no other. -/
theorem tail_encode (c : Char) : ∀ b ∈ (String.utf8EncodeChar c).tail, 0x80 ≤ b.toNat := by
  have hcont : ∀ n : Nat, 0x80 ≤ (UInt8.ofNat (n % 0x40 + 0x80)).toNat := by
    intro n
    rw [toNat_ofNat (by omega)]
    omega
  unfold String.utf8EncodeChar
  simp only
  split
  · simp
  split
  · simpa using hcont _
  split
  · simpa using ⟨hcont _, hcont _⟩
  · simpa using ⟨hcont _, hcont _, hcont _⟩

/-- **A text may be cut where an ASCII byte follows**: what stands before and after are texts. -/
theorem IsText.cut {front back : List UInt8} (h : IsText (front ++ back)) (hback : AsciiFirst back) :
    IsText front ∧ IsText back := by
  obtain ⟨cs, hcs⟩ := isText_iff.mp h
  clear h
  rw [isText_iff, isText_iff]
  induction cs generalizing front with
  | nil =>
    obtain ⟨rfl, rfl⟩ := List.append_eq_nil_iff.mp hcs
    exact ⟨⟨[], rfl⟩, ⟨[], rfl⟩⟩
  | cons c cs ih =>
    rw [List.flatMap_cons, eq_comm, List.append_eq_append_iff] at hcs
    rcases hcs with ⟨more, rfl, hmore⟩ | ⟨more, henc, rfl⟩
    · obtain ⟨⟨cs₁, rfl⟩, hback⟩ := ih hmore.symm
      exact ⟨⟨c :: cs₁, by rw [List.flatMap_cons]⟩, hback⟩
    · -- the cut falls into the character, so it falls on one of its ends
      cases more with
      | nil =>
        refine ⟨⟨[c], ?_⟩, cs, by simp⟩
        rw [List.flatMap_singleton, henc, List.append_nil]
      | cons b more =>
        cases front with
        | nil => exact ⟨⟨[], rfl⟩, c :: cs, by rw [List.flatMap_cons, henc]; rfl⟩
        | cons a front =>
          have hlow : b.toNat < 0x80 := hback b (by simp)
          have hhigh := tail_encode c b (by rw [henc]; simp)
          omega

/-- The first byte of a character of several bytes is not ASCII. -/
theorem tail_encode_eq_nil {c : Char} {b : UInt8} {bs : List UInt8}
    (h : String.utf8EncodeChar c = b :: bs) (hb : b.toNat < 0x80) : bs = [] := by
  unfold String.utf8EncodeChar at h
  simp only at h
  split at h
  · exact (List.cons.inj h).2.symm
  · -- a byte that announces others is at least `0xC0`
    exfalso
    have hlow : ∀ n m : Nat, 0x80 ≤ m → n + m < 256 → UInt8.ofNat (n + m) = b → False := by
      rintro n m hm hlt rfl
      rw [toNat_ofNat hlt] at hb
      omega
    split at h
    · exact hlow _ 0xC0 (by omega) (by omega) (List.cons.inj h).1
    split at h
    · exact hlow _ 0xE0 (by omega) (by omega) (List.cons.inj h).1
    · exact hlow _ 0xF0 (by omega) (by omega) (List.cons.inj h).1

/-- What follows ASCII bytes in a text is a text. -/
theorem IsText.of_ascii_append {front back : List UInt8} (hfront : ∀ b ∈ front, b.toNat < 0x80)
    (h : IsText (front ++ back)) : IsText back := by
  induction front with
  | nil => exact h
  | cons b front ih =>
    obtain ⟨hb, hfront⟩ := List.forall_mem_cons.mp hfront
    refine ih hfront ?_
    obtain ⟨cs, hcs⟩ := isText_iff.mp h
    cases cs with
    | nil => simp at hcs
    | cons c cs =>
      obtain ⟨b', bs, henc, -⟩ := nextRune_encode c []
      rw [List.flatMap_cons, henc, List.cons_append, List.cons_append] at hcs
      obtain ⟨rfl, hrest⟩ := List.cons.inj hcs
      rw [tail_encode_eq_nil henc hb, List.nil_append] at hrest
      exact isText_iff.mpr ⟨cs, hrest⟩

end TypeFlow.Text
