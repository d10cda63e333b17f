/-
Byte strings.

Big-endian lengths, length-prefixed framing, and the lossy reading of bytes as
UTF-8 that replaces every maximal ill-formed part by U+FFFD.

* `append_inj_of_beBytes` — a length prefix tells where its payload ends;
* `flatMap_injective_of_code` — a code whose words are read off one at a time
  is injective on lists;
* `fromUtf8Lossy_append` — an ASCII separator separates readings;
* `fromUtf8Lossy_encode` — well-formed bytes are read as they stand;
* `flatMap_toLower` — lower-casing a text lower-cases its bytes.
-/
import Tapid.Text

namespace Bytes

/-! ### Lengths -/

/-- The low `width` bytes of a number, most significant first. -/
def beBytes : Nat → Nat → List UInt8
  | 0, _ => []
  | width + 1, n => UInt8.ofNat (n / 256 ^ width) :: beBytes width n

@[simp] theorem length_beBytes (width n : Nat) : (beBytes width n).length = width := by
  induction width with
  | zero => rfl
  | succ width ih => rw [beBytes, List.length_cons, ih]

theorem beBytes_injective {width n m : Nat} (hn : n < 256 ^ width) (hm : m < 256 ^ width)
    (h : beBytes width n = beBytes width m) : n = m := by
  suffices hmod : ∀ width, beBytes width n = beBytes width m → n % 256 ^ width = m % 256 ^ width by
    have hmod := hmod width h
    rwa [Nat.mod_eq_of_lt hn, Nat.mod_eq_of_lt hm] at hmod
  intro width
  induction width with
  | zero =>
    intro _
    simp [Nat.mod_one]
  | succ width ih =>
    intro h
    obtain ⟨hhead, htail⟩ := List.cons.inj h
    have hdigit : n / 256 ^ width % 256 = m / 256 ^ width % 256 := by
      have := congrArg UInt8.toNat hhead
      simpa [UInt8.toNat_ofNat'] using this
    rw [Nat.pow_succ, Nat.mod_mul, Nat.mod_mul, ih htail, hdigit]

/-- **A length prefix tells where its payload ends.** -/
theorem append_inj_of_beBytes {width : Nat} {a b x y : List UInt8} (ha : a.length < 256 ^ width)
    (hb : b.length < 256 ^ width)
    (h : beBytes width a.length ++ (a ++ x) = beBytes width b.length ++ (b ++ y)) :
    a = b ∧ x = y := by
  obtain ⟨hlen, hrest⟩ := List.append_inj h (by simp)
  exact List.append_inj hrest (beBytes_injective ha hb hlen)

/-- A code whose words are not empty and are read off one at a time is
injective on lists. -/
theorem flatMap_injective_of_code {α β : Type} {f : α → List β} {P : α → Prop}
    (hne : ∀ a, f a ≠ [])
    (hcode : ∀ a b x y, P a → P b → f a ++ x = f b ++ y → a = b ∧ x = y) {l l' : List α}
    (hl : ∀ a ∈ l, P a) (hl' : ∀ a ∈ l', P a) (h : l.flatMap f = l'.flatMap f) : l = l' := by
  induction l generalizing l' with
  | nil =>
    cases l' with
    | nil => rfl
    | cons b l' =>
      rw [List.flatMap_nil, List.flatMap_cons] at h
      exact absurd (List.append_eq_nil_iff.mp h.symm).1 (hne b)
  | cons a l ih =>
    cases l' with
    | nil =>
      rw [List.flatMap_nil, List.flatMap_cons] at h
      exact absurd (List.append_eq_nil_iff.mp h).1 (hne a)
    | cons b l' =>
      rw [List.flatMap_cons, List.flatMap_cons] at h
      obtain ⟨rfl, hrest⟩ := hcode a b _ _ (hl a (by simp)) (hl' b (by simp)) h
      rw [ih (fun c hc => hl c (by simp [hc])) (fun c hc => hl' c (by simp [hc])) hrest]

/-! ### Lossy UTF-8 -/

/-- The replacement character. -/
def replacement : Char := Char.ofNat 0xFFFD

def isContinuation (b : UInt8) : Bool := 0x80 ≤ b.toNat && b.toNat < 0xC0

/-- Second bytes that may follow the first one of a longer sequence. -/
def isSecond (b₀ b₁ : UInt8) : Bool :=
  isContinuation b₁ && !(b₀.toNat == 0xE0 && b₁.toNat < 0xA0) && !(b₀.toNat == 0xED && 0xA0 ≤ b₁.toNat) &&
    !(b₀.toNat == 0xF0 && b₁.toNat < 0x90) && !(b₀.toNat == 0xF4 && 0x90 ≤ b₁.toNat)

/-- Low bits of a continuation byte. -/
def bits (b : UInt8) : Nat := b.toNat - 0x80

/-- A sequence of two bytes: the character and the further bytes it takes; a
maximal ill-formed part is one replacement character. -/
def takeTwo (b₀ : UInt8) : List UInt8 → Char × Nat
  | b₁ :: _ =>
    if isContinuation b₁ then (Char.ofNat ((b₀.toNat - 0xC0) * 64 + bits b₁), 1)
    else (replacement, 0)
  | [] => (replacement, 0)

/-- A sequence of three bytes. -/
def takeThree (b₀ : UInt8) : List UInt8 → Char × Nat
  | b₁ :: b₂ :: _ =>
    if !isSecond b₀ b₁ then (replacement, 0)
    else if isContinuation b₂ then
      (Char.ofNat ((b₀.toNat - 0xE0) * 4096 + bits b₁ * 64 + bits b₂), 2)
    else (replacement, 1)
  | [b₁] => (replacement, if isSecond b₀ b₁ then 1 else 0)
  | [] => (replacement, 0)

/-- A sequence of four bytes. -/
def takeFour (b₀ : UInt8) : List UInt8 → Char × Nat
  | b₁ :: b₂ :: b₃ :: _ =>
    if !isSecond b₀ b₁ then (replacement, 0)
    else if !isContinuation b₂ then (replacement, 1)
    else if isContinuation b₃ then
      (Char.ofNat ((b₀.toNat - 0xF0) * 262144 + bits b₁ * 4096 + bits b₂ * 64 + bits b₃), 3)
    else (replacement, 2)
  | [b₁, b₂] => (replacement, if !isSecond b₀ b₁ then 0 else if isContinuation b₂ then 2 else 1)
  | [b₁] => (replacement, if isSecond b₀ b₁ then 1 else 0)
  | [] => (replacement, 0)

/-- The character that starts at a byte and how many further bytes it takes. -/
def decodeOne (b₀ : UInt8) (rest : List UInt8) : Char × Nat :=
  if b₀.toNat < 0x80 then (Char.ofNat b₀.toNat, 0)
  else if 0xC2 ≤ b₀.toNat ∧ b₀.toNat < 0xE0 then takeTwo b₀ rest
  else if 0xE0 ≤ b₀.toNat ∧ b₀.toNat < 0xF0 then takeThree b₀ rest
  else if 0xF0 ≤ b₀.toNat ∧ b₀.toNat < 0xF5 then takeFour b₀ rest
  else (replacement, 0)

def lossyGo : Nat → List UInt8 → List Char
  | n + 1, b :: rest => (decodeOne b rest).1 :: lossyGo n (rest.drop (decodeOne b rest).2)
  | _, _ => []

/-- `String::from_utf8_lossy`. -/
def fromUtf8Lossy (bytes : List UInt8) : List Char := lossyGo bytes.length bytes

/-- More fuel than bytes changes nothing. -/
theorem lossyGo_of_length_le {n : Nat} {bytes : List UInt8} (h : bytes.length ≤ n) :
    lossyGo n bytes = fromUtf8Lossy bytes := by
  suffices hall : ∀ n m (bytes : List UInt8), bytes.length ≤ n → bytes.length ≤ m →
      lossyGo n bytes = lossyGo m bytes from hall n _ bytes h (Nat.le_refl _)
  intro n
  induction n with
  | zero =>
    intro m bytes hn _
    obtain rfl := List.length_eq_zero_iff.mp (Nat.le_zero.mp hn)
    cases m <;> rfl
  | succ n ih =>
    intro m bytes hn hm
    cases bytes with
    | nil => cases m <;> rfl
    | cons b rest =>
      obtain ⟨m, rfl⟩ : ∃ k, m = k + 1 := ⟨m - 1, by rw [List.length_cons] at hm; omega⟩
      rw [List.length_cons] at hn hm
      rw [lossyGo, lossyGo, ih m]
      · rw [List.length_drop]
        omega
      · rw [List.length_drop]
        omega

@[simp] theorem fromUtf8Lossy_nil : fromUtf8Lossy [] = [] := rfl

theorem fromUtf8Lossy_cons (b : UInt8) (rest : List UInt8) :
    fromUtf8Lossy (b :: rest) =
      (decodeOne b rest).1 :: fromUtf8Lossy (rest.drop (decodeOne b rest).2) := by
  rw [fromUtf8Lossy, List.length_cons, lossyGo, lossyGo_of_length_le]
  rw [List.length_drop]
  omega

/-- No byte below 0x80 continues a sequence. -/
theorem isSecond_of_lt {b₀ b : UInt8} (h : b.toNat < 0x80) : isSecond b₀ b = false := by
  have : ¬ 0x80 ≤ b.toNat := by omega
  simp [isSecond, isContinuation, this]

theorem isContinuation_of_lt {b : UInt8} (h : b.toNat < 0x80) : isContinuation b = false := by
  have : ¬ 0x80 ≤ b.toNat := by omega
  simp [isContinuation, this]

theorem decodeOne_ascii {b₀ : UInt8} {rest : List UInt8} (h : b₀.toNat < 0x80) :
    decodeOne b₀ rest = (Char.ofNat b₀.toNat, 0) := by
  rw [decodeOne, if_pos h]

theorem decodeOne_two {b₀ b₁ : UInt8} {rest : List UInt8} (h₀ : 0xC2 ≤ b₀.toNat ∧ b₀.toNat < 0xE0)
    (h₁ : isContinuation b₁ = true) :
    decodeOne b₀ (b₁ :: rest) = (Char.ofNat ((b₀.toNat - 0xC0) * 64 + bits b₁), 1) := by
  rw [decodeOne, if_neg (by omega), if_pos h₀, takeTwo, if_pos h₁]

theorem decodeOne_three {b₀ b₁ b₂ : UInt8} {rest : List UInt8}
    (h₀ : 0xE0 ≤ b₀.toNat ∧ b₀.toNat < 0xF0) (h₁ : isSecond b₀ b₁ = true)
    (h₂ : isContinuation b₂ = true) : decodeOne b₀ (b₁ :: b₂ :: rest) =
      (Char.ofNat ((b₀.toNat - 0xE0) * 4096 + bits b₁ * 64 + bits b₂), 2) := by
  rw [decodeOne, if_neg (by omega), if_neg (by omega), if_pos h₀, takeThree, h₁, Bool.not_true,
    if_neg Bool.false_ne_true, if_pos h₂]

theorem decodeOne_four {b₀ b₁ b₂ b₃ : UInt8} {rest : List UInt8}
    (h₀ : 0xF0 ≤ b₀.toNat ∧ b₀.toNat < 0xF5) (h₁ : isSecond b₀ b₁ = true)
    (h₂ : isContinuation b₂ = true) (h₃ : isContinuation b₃ = true) :
    decodeOne b₀ (b₁ :: b₂ :: b₃ :: rest) = (Char.ofNat ((b₀.toNat - 0xF0) * 262144 +
      bits b₁ * 4096 + bits b₂ * 64 + bits b₃), 3) := by
  rw [decodeOne, if_neg (by omega), if_neg (by omega), if_neg (by omega), if_pos h₀, takeFour, h₁, h₂,
    Bool.not_true, if_neg Bool.false_ne_true, if_neg Bool.false_ne_true, if_pos h₃]

section Separator

variable {b₀ sep : UInt8} (h : sep.toNat < 0x80)
include h

theorem takeTwo_append (rest more : List UInt8) :
    takeTwo b₀ (rest ++ sep :: more) = takeTwo b₀ rest ∧ (takeTwo b₀ rest).2 ≤ rest.length := by
  cases rest with
  | nil =>
    rw [List.nil_append, takeTwo, isContinuation_of_lt h, if_neg Bool.false_ne_true]
    exact ⟨rfl, Nat.le_refl _⟩
  | cons b₁ rest =>
    refine ⟨rfl, ?_⟩
    rw [takeTwo]
    split_ifs
    · exact Nat.le_add_left 1 _
    · exact Nat.zero_le _

theorem takeThree_append (rest more : List UInt8) :
    takeThree b₀ (rest ++ sep :: more) = takeThree b₀ rest ∧
      (takeThree b₀ rest).2 ≤ rest.length := by
  match rest with
  | [] =>
    refine ⟨?_, Nat.le_refl _⟩
    cases more with
    | nil =>
      rw [List.nil_append, takeThree, isSecond_of_lt h, if_neg Bool.false_ne_true]
      rfl
    | cons c more =>
      rw [List.nil_append, takeThree, isSecond_of_lt h, Bool.not_false, if_pos rfl]
      rfl
  | [b₁] =>
    rw [List.singleton_append, takeThree, takeThree, isContinuation_of_lt h,
      if_neg Bool.false_ne_true]
    cases isSecond b₀ b₁ with
    | false => exact ⟨rfl, Nat.zero_le _⟩
    | true => exact ⟨rfl, Nat.le_refl _⟩
  | b₁ :: b₂ :: rest =>
    refine ⟨rfl, ?_⟩
    rw [takeThree]
    split_ifs
    · exact Nat.zero_le _
    · exact Nat.le_add_left 2 _
    · exact Nat.le_add_left 1 _

theorem takeFour_append (rest more : List UInt8) :
    takeFour b₀ (rest ++ sep :: more) = takeFour b₀ rest ∧ (takeFour b₀ rest).2 ≤ rest.length := by
  match rest with
  | [] =>
    refine ⟨?_, Nat.le_refl _⟩
    match more with
    | [] =>
      rw [List.nil_append, takeFour, isSecond_of_lt h, if_neg Bool.false_ne_true]
      rfl
    | [c] =>
      rw [List.nil_append, takeFour, isSecond_of_lt h, Bool.not_false, if_pos rfl]
      rfl
    | c :: d :: more =>
      rw [List.nil_append, takeFour, isSecond_of_lt h, Bool.not_false, if_pos rfl]
      rfl
  | [b₁] =>
    cases more with
    | nil =>
      rw [List.singleton_append, takeFour, takeFour, isContinuation_of_lt h,
        if_neg Bool.false_ne_true]
      cases isSecond b₀ b₁ with
      | false => exact ⟨rfl, Nat.zero_le _⟩
      | true => exact ⟨rfl, Nat.le_refl _⟩
    | cons c more =>
      rw [List.singleton_append, takeFour, takeFour, isContinuation_of_lt h, Bool.not_false,
        if_pos rfl]
      cases isSecond b₀ b₁ with
      | false => exact ⟨rfl, Nat.zero_le _⟩
      | true => exact ⟨rfl, Nat.le_refl _⟩
  | [b₁, b₂] =>
    rw [List.cons_append, List.singleton_append, takeFour, takeFour, isContinuation_of_lt h,
      if_neg Bool.false_ne_true]
    cases isSecond b₀ b₁ with
    | false => exact ⟨rfl, Nat.zero_le _⟩
    | true =>
      cases isContinuation b₂ with
      | false => exact ⟨rfl, Nat.le_add_left 1 _⟩
      | true => exact ⟨rfl, Nat.le_refl _⟩
  | b₁ :: b₂ :: b₃ :: rest =>
    refine ⟨rfl, ?_⟩
    rw [takeFour]
    split_ifs
    · exact Nat.zero_le _
    · exact Nat.le_add_left 1 _
    · exact Nat.le_add_left 3 _
    · exact Nat.le_add_left 2 _

/-- A separator ends what is read before it. -/
theorem decodeOne_append (rest more : List UInt8) :
    decodeOne b₀ (rest ++ sep :: more) = decodeOne b₀ rest ∧
      (decodeOne b₀ rest).2 ≤ rest.length := by
  rw [decodeOne, decodeOne]
  split_ifs
  · exact ⟨rfl, Nat.zero_le _⟩
  · exact takeTwo_append h rest more
  · exact takeThree_append h rest more
  · exact takeFour_append h rest more
  · exact ⟨rfl, Nat.zero_le _⟩

end Separator

/-- **A separator below 0x80 separates readings.** -/
theorem fromUtf8Lossy_append {sep : UInt8} (h : sep.toNat < 0x80) (a b : List UInt8) :
    fromUtf8Lossy (a ++ sep :: b) = fromUtf8Lossy a ++ Char.ofNat sep.toNat :: fromUtf8Lossy b := by
  -- the part before the separator gets shorter with every character read
  induction hn : a.length using Nat.strong_induction_on generalizing a with
  | _ n ih =>
    cases a with
    | nil =>
      have hone : decodeOne sep b = (Char.ofNat sep.toNat, 0) := decodeOne_ascii h
      rw [List.nil_append, fromUtf8Lossy_cons, hone]
      rfl
    | cons b₀ rest =>
      obtain ⟨hone, hle⟩ := @decodeOne_append b₀ sep h rest b
      rw [List.cons_append, fromUtf8Lossy_cons, fromUtf8Lossy_cons, hone,
        List.drop_append_of_le_length hle, List.cons_append]
      rw [ih _ ?_ (rest.drop (decodeOne b₀ rest).2) rfl]
      rw [List.length_drop, ← hn, List.length_cons]
      omega

theorem toNat_ofNat_of_lt {n : Nat} (h : n < 256) : (UInt8.ofNat n).toNat = n := by
  rw [UInt8.toNat_ofNat', Nat.mod_eq_of_lt h]

/-- A continuation byte carries the low bits. -/
theorem continuation (n : Nat) : (UInt8.ofNat (n % 0x40 + 0x80)).toNat = n % 0x40 + 0x80 ∧
    isContinuation (UInt8.ofNat (n % 0x40 + 0x80)) = true ∧
    bits (UInt8.ofNat (n % 0x40 + 0x80)) = n % 0x40 := by
  have hb : (UInt8.ofNat (n % 0x40 + 0x80)).toNat = n % 0x40 + 0x80 := toNat_ofNat_of_lt (by omega)
  have hcont : isContinuation (UInt8.ofNat (n % 0x40 + 0x80)) = true := by
    simp only [isContinuation, hb, Bool.and_eq_true, decide_eq_true_eq]
    omega
  have hbits : bits (UInt8.ofNat (n % 0x40 + 0x80)) = n % 0x40 := by
    unfold bits
    omega
  exact ⟨hb, hcont, hbits⟩

theorem isSecond_iff {b₀ b₁ : UInt8} : isSecond b₀ b₁ = true ↔ isContinuation b₁ = true ∧
    ¬ (b₀.toNat = 0xE0 ∧ b₁.toNat < 0xA0) ∧ ¬ (b₀.toNat = 0xED ∧ 0xA0 ≤ b₁.toNat) ∧
    ¬ (b₀.toNat = 0xF0 ∧ b₁.toNat < 0x90) ∧ ¬ (b₀.toNat = 0xF4 ∧ 0x90 ≤ b₁.toNat) := by
  simp only [isSecond, Bool.and_eq_true, Bool.not_eq_true', Bool.and_eq_false_iff,
    beq_eq_false_iff_ne, decide_eq_false_iff_not, and_assoc]
  refine and_congr_right fun _ => ?_
  constructor
  · rintro ⟨h1, h2, h3, h4⟩
    omega
  · rintro ⟨h1, h2, h3, h4⟩
    omega

/-- One encoded character is read back. -/
theorem decodeOne_utf8EncodeChar (c : Char) (rest : List UInt8) :
    ∃ b bytes, String.utf8EncodeChar c = b :: bytes ∧
      decodeOne b (bytes ++ rest) = (c, bytes.length) := by
  have hc : Char.ofNat c.val.toNat = c := Char.ofNat_toNat c
  have hvalid : c.val.toNat < 0xD800 ∨ (0xDFFF < c.val.toNat ∧ c.val.toNat < 0x110000) := c.valid
  unfold String.utf8EncodeChar
  generalize c.val.toNat = v at hc hvalid
  simp only
  split_ifs with h1 h2 h3
  · refine ⟨_, _, rfl, ?_⟩
    have hb : (UInt8.ofNat v).toNat = v := toNat_ofNat_of_lt (by omega)
    rw [decodeOne_ascii (by omega), hb, hc]
    rfl
  · refine ⟨_, _, rfl, ?_⟩
    have hb₀ : (UInt8.ofNat (v / 64 % 0x20 + 0xc0)).toNat = v / 64 % 0x20 + 0xc0 :=
      toNat_ofNat_of_lt (by omega)
    obtain ⟨_, hcont, hbits⟩ := continuation v
    rw [List.cons_append, decodeOne_two (by omega) hcont, hb₀, hbits,
      show (v / 64 % 0x20 + 0xc0 - 0xC0) * 64 + v % 0x40 = v by omega, hc]
    rfl
  · refine ⟨_, _, rfl, ?_⟩
    have hb₀ : (UInt8.ofNat (v / 4096 % 0x10 + 0xe0)).toNat = v / 4096 % 0x10 + 0xe0 :=
      toNat_ofNat_of_lt (by omega)
    obtain ⟨hb₁, hcont₁, hbits₁⟩ := continuation (v / 64)
    obtain ⟨_, hcont₂, hbits₂⟩ := continuation v
    have hsecond : isSecond (UInt8.ofNat (v / 4096 % 0x10 + 0xe0))
        (UInt8.ofNat (v / 64 % 0x40 + 0x80)) = true := by
      rw [isSecond_iff, hb₀, hb₁]
      exact ⟨hcont₁, by omega, by omega, by omega, by omega⟩
    rw [List.cons_append, List.cons_append, decodeOne_three (by omega) hsecond hcont₂, hb₀, hbits₁,
      hbits₂, show (v / 4096 % 0x10 + 0xe0 - 0xE0) * 4096 + v / 64 % 0x40 * 64 + v % 0x40 = v by omega,
      hc]
    rfl
  · refine ⟨_, _, rfl, ?_⟩
    have hb₀ : (UInt8.ofNat (v / 262144 % 0x08 + 0xf0)).toNat = v / 262144 % 0x08 + 0xf0 :=
      toNat_ofNat_of_lt (by omega)
    obtain ⟨hb₁, hcont₁, hbits₁⟩ := continuation (v / 4096)
    obtain ⟨_, hcont₂, hbits₂⟩ := continuation (v / 64)
    obtain ⟨_, hcont₃, hbits₃⟩ := continuation v
    have hsecond : isSecond (UInt8.ofNat (v / 262144 % 0x08 + 0xf0))
        (UInt8.ofNat (v / 4096 % 0x40 + 0x80)) = true := by
      rw [isSecond_iff, hb₀, hb₁]
      exact ⟨hcont₁, by omega, by omega, by omega, by omega⟩
    rw [List.cons_append, List.cons_append, List.cons_append,
      decodeOne_four (by omega) hsecond hcont₂ hcont₃, hb₀, hbits₁, hbits₂, hbits₃,
      show (v / 262144 % 0x08 + 0xf0 - 0xF0) * 262144 + v / 4096 % 0x40 * 4096 + v / 64 % 0x40 * 64 +
        v % 0x40 = v by omega, hc]
    rfl

/-- ASCII characters are their own byte, and no other character has an ASCII
byte in its encoding. -/
theorem utf8EncodeChar_cases (c : Char) :
    (c.toNat < 0x80 ∧ String.utf8EncodeChar c = [UInt8.ofNat c.toNat]) ∨
      (0x80 ≤ c.toNat ∧ ∀ b ∈ String.utf8EncodeChar c, 0x80 ≤ b.toNat) := by
  have hvalid : c.val.toNat < 0xD800 ∨ (0xDFFF < c.val.toNat ∧ c.val.toNat < 0x110000) := c.valid
  unfold String.utf8EncodeChar Char.toNat
  generalize c.val.toNat = v at hvalid
  obtain ⟨h0, _, _⟩ := continuation v
  obtain ⟨h6, _, _⟩ := continuation (v / 64)
  obtain ⟨h12, _, _⟩ := continuation (v / 4096)
  simp only
  split_ifs with h1 h2 h3
  · exact Or.inl ⟨by omega, rfl⟩
  · refine Or.inr ⟨by omega, fun b hb => ?_⟩
    have hb₀ : (UInt8.ofNat (v / 64 % 0x20 + 0xc0)).toNat = v / 64 % 0x20 + 0xc0 :=
      toNat_ofNat_of_lt (by omega)
    simp only [List.mem_cons, List.not_mem_nil, or_false] at hb
    rcases hb with rfl | rfl <;> omega
  · refine Or.inr ⟨by omega, fun b hb => ?_⟩
    have hb₀ : (UInt8.ofNat (v / 4096 % 0x10 + 0xe0)).toNat = v / 4096 % 0x10 + 0xe0 :=
      toNat_ofNat_of_lt (by omega)
    simp only [List.mem_cons, List.not_mem_nil, or_false] at hb
    rcases hb with rfl | rfl | rfl <;> omega
  · refine Or.inr ⟨by omega, fun b hb => ?_⟩
    have hb₀ : (UInt8.ofNat (v / 262144 % 0x08 + 0xf0)).toNat = v / 262144 % 0x08 + 0xf0 :=
      toNat_ofNat_of_lt (by omega)
    simp only [List.mem_cons, List.not_mem_nil, or_false] at hb
    rcases hb with rfl | rfl | rfl | rfl <;> omega

/-- An ASCII byte of a text is one of its characters. -/
theorem mem_of_ascii_mem {s : List Char} {c : Char} (hc : c.toNat < 0x80)
    (h : UInt8.ofNat c.toNat ∈ s.flatMap String.utf8EncodeChar) : c ∈ s := by
  obtain ⟨d, hd, hmem⟩ := List.mem_flatMap.mp h
  have hbyte : (UInt8.ofNat c.toNat).toNat = c.toNat := toNat_ofNat_of_lt (by omega)
  rcases utf8EncodeChar_cases d with ⟨hlt, heq⟩ | ⟨_, hhigh⟩
  · rw [heq, List.mem_singleton] at hmem
    have hnat := congrArg UInt8.toNat hmem
    rw [hbyte, toNat_ofNat_of_lt (by omega)] at hnat
    rwa [Char.toNat_inj.mp hnat]
  · have := hhigh _ hmem
    omega

/-- ASCII lower-casing of a byte. -/
def lowerByte (b : UInt8) : UInt8 := if 0x41 ≤ b.toNat ∧ b.toNat ≤ 0x5A then UInt8.ofNat (b.toNat + 0x20) else b

theorem utf8EncodeChar_toLower (c : Char) :
    String.utf8EncodeChar c.toLower = (String.utf8EncodeChar c).map lowerByte := by
  by_cases hlt : c.toNat < 128
  · exact Text.of_ascii (P := fun c =>
      String.utf8EncodeChar c.toLower = (String.utf8EncodeChar c).map lowerByte) (by decide) hlt
  · -- nothing to lower beyond ASCII
    have hlower : c.toLower = c := by
      refine dif_neg ?_
      rintro ⟨_, hz⟩
      exact hlt (lt_of_le_of_lt (show c.toNat ≤ 'Z'.toNat from hz) (by decide))
    rcases utf8EncodeChar_cases c with ⟨hascii, _⟩ | ⟨_, hhigh⟩
    · exact absurd hascii hlt
    · rw [hlower]
      conv_lhs => rw [← List.map_id (String.utf8EncodeChar c)]
      refine List.map_congr_left fun b hb => ?_
      have := hhigh b hb
      rw [lowerByte, if_neg (by omega), id]

theorem flatMap_toLower (s : List Char) : (s.map Char.toLower).flatMap String.utf8EncodeChar =
    (s.flatMap String.utf8EncodeChar).map lowerByte := by
  rw [List.flatMap_map, List.map_flatMap]
  exact List.flatMap_congr fun c _ => utf8EncodeChar_toLower c

/-- **Well-formed bytes are read as they stand.** -/
theorem fromUtf8Lossy_encode (s : List Char) :
    fromUtf8Lossy (s.flatMap String.utf8EncodeChar) = s := by
  induction s with
  | nil => rfl
  | cons c s ih =>
    obtain ⟨b, bytes, hbytes, hone⟩ := decodeOne_utf8EncodeChar c (s.flatMap String.utf8EncodeChar)
    rw [List.flatMap_cons, hbytes, List.cons_append, fromUtf8Lossy_cons, hone, List.drop_left, ih]

end Bytes
