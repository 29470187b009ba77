import BasicOs.Lib.Numeral
import BasicOs.Printf

/-!
# Numbers in text

What `itoa` leaves in its buffer and what `printf` prints for a number, against the numerals of the number.

* `Text` : a string in a buffer, with its NUL;
* `strrev_text` : `strrev` reverses it where it stands;
* `itoa_text` : the buffer holds the numeral after `itoa`, and nothing is stored behind its NUL;
* `hexPadded_eq`, `decimal_eq` : the characters of `%#x` and `%d`;
* `numbers_read_back` : the laws of the three.
-/

namespace BasicOs
open Bytes Numeral Printf

/-! ## Strings in a buffer -/

/-- The string `chars` at the start of the buffer. -/
structure Text (buf : Nat → UInt8) (chars : List UInt8) : Prop where
  nonzero : 0 ∉ chars
  bytes : ∀ i ≤ chars.length, buf i = ofList chars i

variable {buf : Nat → UInt8} {chars : List UInt8}

theorem Text.byte_ne_zero (h : Text buf chars) {i : Nat} (hi : i < chars.length) : buf i ≠ 0 := by
  rw [h.bytes i hi.le, ofList, List.getD_eq_getElem _ _ hi]
  exact fun h0 => h.nonzero (h0 ▸ List.getElem_mem hi)

theorem Text.byte_end (h : Text buf chars) : buf chars.length = 0 := by
  rw [h.bytes _ (le_refl _), ofList, List.getD_eq_default _ _ (le_refl _)]

theorem Text.strnlen_eq (h : Text buf chars) {n : Nat} (hn : chars.length < n) : strnlen buf n = chars.length :=
  strnlen_eq_of_zero hn (fun _ hi => h.byte_ne_zero hi) h.byte_end

theorem Text.tail {c : UInt8} (h : Text buf (c :: chars)) : Text (fun i => buf (i + 1)) chars where
  nonzero hmem := h.nonzero (List.mem_cons_of_mem c hmem)
  bytes i hi := (h.bytes (i + 1) (Nat.succ_le_succ hi)).trans (List.getD_cons_succ ..)

theorem Text.cstr_eq (h : Text buf chars) {n : Nat} (hn : chars.length < n) : cstr (bytesAt buf n) = chars := by
  induction chars generalizing buf n with
  | nil =>
    obtain ⟨m, rfl⟩ := Nat.exists_eq_succ_of_ne_zero (Nat.ne_of_gt hn)
    rw [bytesAt_succ, cstr_cons]
    exact if_pos h.byte_end
  | cons c chars ih =>
    obtain ⟨m, rfl⟩ := Nat.exists_eq_succ_of_ne_zero (Nat.ne_of_gt (Nat.zero_lt_of_lt hn))
    have hc : buf 0 = c := h.bytes 0 (Nat.zero_le _)
    have hne : c ≠ 0 := fun h0 => h.nonzero (h0 ▸ List.mem_cons_self)
    rw [bytesAt_succ, cstr_cons, hc, if_neg hne, ih h.tail (Nat.lt_of_succ_lt_succ hn)]

/-! ## `strrev` -/

/-- The loop over the `m` bytes from `first` on, with rounds enough for half of them. -/
theorem strrevLoop_apply (fuel first m : Nat) (s : Nat → UInt8) (hm : m ≤ 2 * fuel + 1) (i : Nat) :
    strrevLoop fuel first ((first : Int) + m - 1) s i =
      if first ≤ i ∧ i < first + m then s (2 * first + m - 1 - i) else s i := by
  induction fuel generalizing first m s with
  | zero =>
    rw [strrevLoop]
    split_ifs with hin
    · rw [show 2 * first + m - 1 - i = i by omega]
    · rfl
  | succ fuel ih =>
    rw [strrevLoop]
    by_cases hlt : (first : Int) < (first : Int) + m - 1
    · have hlast : ((first : Int) + m - 1).toNat = first + m - 1 := by omega
      have hfirst : (first : Int) + 1 = (first + 1 : Nat) := by omega
      have hnext : (first : Int) + m - 1 - 1 = (first + 1 : Nat) + (m - 2 : Nat) - 1 := by omega
      rw [if_pos hlt, hlast, Int.toNat_natCast, hnext, hfirst, ih (first + 1) (m - 2) _ (by omega)]
      by_cases hin : first + 1 ≤ i ∧ i < first + 1 + (m - 2)
      · -- a byte between the two that were exchanged
        rw [if_pos hin, if_pos (by omega), Function.update_of_ne (by omega), Function.update_of_ne (by omega)]
        congr 1
        omega
      · rw [if_neg hin]
        by_cases hi : i = first
        · rw [hi, Function.update_self, if_pos (by omega)]
          congr 1
          omega
        · rw [Function.update_of_ne hi]
          by_cases hj : i = first + m - 1
          · rw [hj, Function.update_self, if_pos (by omega)]
            congr 1
            omega
          · rw [Function.update_of_ne hj, if_neg (by omega)]
    · rw [if_neg hlt]
      split_ifs with hin
      · rw [show 2 * first + m - 1 - i = i by omega]
      · rfl

/-- A string of less than 64 bytes is reversed where it stands. -/
theorem strrev_text (h : Text buf chars) (hlen : chars.length < 64) :
    Text (strrev buf) chars.reverse ∧ ∀ i, chars.length ≤ i → strrev buf i = buf i := by
  have happly : ∀ i, strrev buf i = if i < chars.length then buf (chars.length - 1 - i) else buf i := by
    intro i
    have hloop := strrevLoop_apply chars.length 0 chars.length buf (by omega) i
    rw [Nat.cast_zero, Int.zero_add, Nat.mul_zero, Nat.zero_add] at hloop
    unfold strrev
    rw [h.strnlen_eq hlen, hloop]
    simp only [Nat.zero_le, true_and]
  refine ⟨⟨fun hmem => h.nonzero (List.mem_reverse.mp hmem), fun i hi => ?_⟩, fun i hi => ?_⟩
  · rw [List.length_reverse] at hi
    rw [happly]
    split_ifs with hin
    · rw [h.bytes _ (by omega), ofList, ofList, List.getD_eq_getElem _ _ (by omega),
        List.getD_eq_getElem _ _ (by rw [List.length_reverse]; exact hin), List.getElem_reverse]
    · rw [show i = chars.length by omega, h.byte_end, ofList,
        List.getD_eq_default _ _ (by rw [List.length_reverse])]
  · rw [happly, if_neg (by omega)]

/-! ## `itoa` -/

/-- The symbol of a digit. -/
def symbol (d : Nat) : UInt8 := itoaLookup.getD d 0

theorem itoaLookup_nodup : itoaLookup.Nodup := by decide

theorem zero_notMem_itoaLookup : 0 ∉ itoaLookup := by decide

theorem le_length_itoaLookup {radix : Nat} (h36 : radix ≤ 36) : radix ≤ itoaLookup.length := h36

/-- The numeral that `itoa` writes. -/
def numeral (radix value : Nat) : List UInt8 := write itoaLookup 0 radix value

variable {radix value : Nat}

theorem zero_notMem_numeral (h2 : 2 ≤ radix) (h36 : radix ≤ 36) (value : Nat) : 0 ∉ numeral radix value := by
  intro h
  exact zero_notMem_itoaLookup (List.mem_of_mem_take (mem_write h2 (le_length_itoaLookup h36) h))

/-- A string that is stored with its NUL. -/
theorem text_stored {l : List UInt8} (hl : 0 ∉ l) (buf : Nat → UInt8) :
    Text (Function.update (storeAll buf 0 l) l.length 0) l ∧
      ∀ i, l.length < i → Function.update (storeAll buf 0 l) l.length 0 i = buf i := by
  refine ⟨⟨hl, fun i hi => ?_⟩, fun i hi => ?_⟩
  · rcases Nat.lt_or_eq_of_le hi with hlt | rfl
    · rw [Function.update_of_ne (by omega), storeAll, if_pos (by omega)]
      rfl
    · rw [Function.update_self, ofList, List.getD_eq_default _ _ (le_refl _)]
  · rw [Function.update_of_ne (by omega), storeAll, if_neg (by omega)]

/-- The digits of a value below `radix ^ fuel` go into the buffer, the lowest first. -/
theorem itoaLoop_eq (h2 : 2 ≤ radix) (fuel : Nat) (hvalue : value < radix ^ fuel) (buf : Nat → UInt8) (pos : Nat) :
    itoaLoop radix fuel value buf pos =
      some (storeAll buf pos ((Nat.digits radix value).map symbol), pos + (Nat.digits radix value).length) := by
  induction fuel generalizing value buf pos with
  | zero =>
    obtain rfl : value = 0 := Nat.lt_one_iff.mp (by rwa [pow_zero] at hvalue)
    rw [itoaLoop, if_pos rfl, Nat.digits_zero, List.map_nil, storeAll_nil]
    rfl
  | succ fuel ih =>
    rw [itoaLoop]
    split_ifs with h0
    · rw [h0, Nat.digits_zero, List.map_nil, storeAll_nil]
      rfl
    · have hdiv : value / radix < radix ^ fuel := by
        rw [pow_succ'] at hvalue
        exact Nat.div_lt_of_lt_mul hvalue
      rw [ih hdiv, Nat.digits_def' h2 (Nat.pos_of_ne_zero h0), List.map_cons, List.length_cons, storeAll_cons,
        Nat.add_right_comm, Nat.add_assoc]
      rfl

/-- The buffer holds the numeral, and is kept behind its NUL. -/
theorem itoa_text (h2 : 2 ≤ radix) (h36 : radix ≤ 36) (hvalue : value < 2 ^ 32) (buf : Nat → UInt8) :
    ∃ buf', itoa value buf radix = some buf' ∧ Text buf' (numeral radix value) ∧
      ∀ i, (numeral radix value).length < i → buf' i = buf i := by
  have hpow : value < radix ^ 32 := lt_of_lt_of_le hvalue (Nat.pow_le_pow_left h2 32)
  have hnonzero := zero_notMem_numeral h2 h36 value
  unfold itoa
  by_cases h0 : value = 0
  · have hzero : numeral radix value = [48] := by
      unfold numeral write places
      rw [if_pos h0]
      rfl
    have hstored : Function.update buf 0 48 = storeAll buf 0 [48] := by rw [← storeAll_cons, storeAll_nil]
    rw [if_pos h0, hstored, hzero]
    exact ⟨_, rfl, text_stored (by decide) buf⟩
  · have hnumeral : numeral radix value = ((Nat.digits radix value).map symbol).reverse := by
      unfold numeral write places
      rw [if_neg h0, List.map_reverse]
      rfl
    have hlength : ((Nat.digits radix value).map symbol).length ≤ 32 := by
      rw [List.length_map]
      exact (Nat.digits_length_le_iff h2 value).mpr hpow
    rw [if_neg h0, itoaLoop_eq h2 32 hpow, Option.map_some, hnumeral, List.length_reverse, Nat.zero_add]
    rw [hnumeral, List.mem_reverse] at hnonzero
    obtain ⟨htext, hframe⟩ := text_stored hnonzero buf
    rw [List.length_map] at htext hframe hlength ⊢
    obtain ⟨hrev, hkept⟩ := strrev_text htext (by rw [List.length_map]; omega)
    refine ⟨_, rfl, hrev, fun i hi => ?_⟩
    rw [List.length_map] at hkept
    exact (hkept i hi.le).trans (hframe i hi)

/-! ## `printf` -/

theorem length_numeral (h2 : 2 ≤ radix) (hvalue : value < 2 ^ 32) : (numeral radix value).length ≤ 32 :=
  length_write_le h2 (by decide) (lt_of_lt_of_le hvalue (Nat.pow_le_pow_left h2 32))

/-- The characters of a conversion without a sign. -/
theorem putsChars_itoa (h2 : 2 ≤ radix) (h36 : radix ≤ 36) (hvalue : value < 2 ^ 32) (buf : Nat → UInt8) :
    (itoa value buf radix).map putsChars = some (numeral radix value) := by
  obtain ⟨buf', hitoa, htext, -⟩ := itoa_text h2 h36 hvalue buf
  have hlen := length_numeral h2 hvalue
  rw [hitoa, Option.map_some, putsChars, htext.cstr_eq (by omega)]

/-- `%#x`: zeros in front, up to eight characters. -/
theorem hexPadded_eq (hvalue : value < 2 ^ 32) (convBuf : Nat → UInt8) :
    hexPadded value convBuf =
      some (List.replicate (8 - (numeral 16 value).length) 48 ++ numeral 16 value) := by
  obtain ⟨digits, hitoa, htext, -⟩ := itoa_text (by decide : 2 ≤ 16) (by decide) hvalue fun i => convBuf (8 + i)
  have hlen : (numeral 16 value).length ≤ 8 := length_write_le (by decide) (by decide) (by omega)
  have hnonzero : 0 ∉ List.replicate (8 - (numeral 16 value).length) 48 ++ numeral 16 value := by
    intro h0
    rcases List.mem_append.mp h0 with h0 | h0
    · exact absurd (List.eq_of_mem_replicate h0) (by decide)
    · exact htext.nonzero h0
  have hlength : (List.replicate (8 - (numeral 16 value).length) (48 : UInt8) ++ numeral 16 value).length = 8 := by
    rw [List.length_append, List.length_replicate]
    omega
  unfold hexPadded
  rw [hitoa, Option.map_some, htext.strnlen_eq (by omega)]
  dsimp only
  refine congrArg some (Text.cstr_eq ⟨hnonzero, fun i hi => ?_⟩ (by omega))
  rw [hlength] at hi
  unfold ofList
  by_cases hzeros : (numeral 16 value).length + i < 8
  · rw [if_neg (by omega), if_pos (by omega), List.getD_append _ _ _ _ (by rw [List.length_replicate]; omega),
      List.getD_eq_getElem _ _ (by rw [List.length_replicate]; omega), List.getElem_replicate]
  · rw [if_pos (by omega), List.getD_append_right _ _ _ _ (by rw [List.length_replicate]; omega),
      List.length_replicate, htext.bytes _ (by omega), ofList]
    congr 1
    omega

/-- `%d`: a minus and the numeral of the absolute value; the least integer is negated to `2^31`. -/
theorem decimal_eq (value : Nat) (convBuf : Nat → UInt8) :
    decimal value convBuf = some ((if i32 value < 0 then [45] else []) ++ numeral 10 (i32 value).natAbs) := by
  have hrange : -2 ^ 31 ≤ i32 value ∧ i32 value < 2 ^ 31 := by
    unfold i32
    omega
  unfold decimal
  dsimp only
  by_cases hneg : i32 value < 0
  · have habs : u32 (-i32 value).toNat = (i32 value).natAbs := by
      unfold u32
      omega
    obtain ⟨digits, hitoa, htext, -⟩ :=
      itoa_text (by decide : 2 ≤ 10) (by decide) (show (i32 value).natAbs < 2 ^ 32 by omega) fun i => convBuf (1 + i)
    have hlen : (numeral 10 (i32 value).natAbs).length ≤ 32 := length_numeral (by decide) (by omega)
    rw [if_pos hneg, if_pos hneg, habs, hitoa, Option.map_some, putsChars, htext.cstr_eq (by omega),
      List.singleton_append]
  · have habs : (i32 value).toNat = (i32 value).natAbs := by omega
    rw [if_neg hneg, if_neg hneg, habs, putsChars_itoa (by decide) (by decide) (by omega), List.nil_append]

section Steps
variable {env : Env} {s : State}

theorem printfStep_percent (hmode : s.mode = .text) (hbyte : env.format s.buf = 37) :
    printfStep env s = { s with mode := .conv false, buf := s.buf + 1 } := by
  unfold printfStep
  rw [hmode, hbyte]
  rfl

theorem printfStep_alternate {alternate : Bool} (hmode : s.mode = .conv alternate) (hbyte : env.format s.buf = 35) :
    printfStep env s = { s with mode := .conv true, buf := s.buf + 1 } := by
  unfold printfStep
  rw [hmode, hbyte]
  rfl

/-- A letter whose conversion takes an argument. -/
theorem printfStep_conversion {alternate : Bool} (hmode : s.mode = .conv alternate) {c : UInt8}
    (hbyte : env.format s.buf = c) (h37 : c ≠ 37) (h35 : c ≠ 35) {chars : List UInt8}
    (hchars : conversion env alternate c (env.arg s.args) = some chars) :
    printfStep env s = ⟨.text, s.buf + 1, s.args + 1, s.out ++ chars⟩ := by
  unfold printfStep
  rw [hmode, hbyte]
  dsimp only
  rw [if_neg h37, if_neg h35, hchars]

/-- `%d` in the format. -/
theorem printfStep_decimal (hmode : s.mode = .text) (hformat : bytesAt (fun i => env.format (s.buf + i)) 2 = [37, 100])
    {chars : List UInt8} (hchars : decimal (env.arg s.args) env.stale = some chars) :
    (printfStep env)^[2] s = ⟨.text, s.buf + 2, s.args + 1, s.out ++ chars⟩ := by
  obtain ⟨hpercent, hletter⟩ : env.format s.buf = 37 ∧ env.format (s.buf + 1) = 100 := by
    simpa [bytesAt, List.range_succ] using hformat
  have hconv : conversion env false 100 (env.arg s.args) = some chars := by
    unfold conversion
    rw [if_neg (by decide), if_neg (by decide), if_pos rfl, hchars]
  rw [Function.iterate_succ_apply, Function.iterate_one, printfStep_percent hmode hpercent]
  exact printfStep_conversion rfl hletter (by decide) (by decide) hconv

/-- `%#x` in the format. -/
theorem printfStep_hexPadded (hmode : s.mode = .text)
    (hformat : bytesAt (fun i => env.format (s.buf + i)) 3 = [37, 35, 120]) {chars : List UInt8}
    (hchars : hexPadded (env.arg s.args) env.stale = some chars) :
    (printfStep env)^[3] s = ⟨.text, s.buf + 3, s.args + 1, s.out ++ chars⟩ := by
  obtain ⟨hpercent, halternate, hletter⟩ :
      env.format s.buf = 37 ∧ env.format (s.buf + 1) = 35 ∧ env.format (s.buf + 2) = 120 := by
    simpa [bytesAt, List.range_succ] using hformat
  have hconv : conversion env true 120 (env.arg s.args) = some chars := by
    unfold conversion
    rw [if_pos rfl, if_pos rfl, hchars]
  have hsecond : printfStep env ⟨.conv false, s.buf + 1, s.args, s.out⟩ = ⟨.conv true, s.buf + 2, s.args, s.out⟩ :=
    printfStep_alternate rfl halternate
  rw [Function.iterate_succ_apply, Function.iterate_succ_apply, Function.iterate_one,
    printfStep_percent hmode hpercent, hsecond]
  exact printfStep_conversion rfl hletter (by decide) (by decide) hconv

end Steps

/-! ## The laws -/

/-- The characters read back as `value` in base `radix`. -/
def ReadsBack (radix value : Nat) (chars : List UInt8) : Prop :=
  (∀ c ∈ chars, c ∈ itoaLookup.take radix) ∧ read itoaLookup radix chars = some value

theorem readsBack_padded (h2 : 2 ≤ radix) (h36 : radix ≤ 36) (n value : Nat) :
    ReadsBack radix value (List.replicate n 48 ++ numeral radix value) := by
  refine ⟨fun c hc => ?_, read_padded h2 (le_length_itoaLookup h36) itoaLookup_nodup n value⟩
  rcases List.mem_append.mp hc with hc | hc
  · rw [List.eq_of_mem_replicate hc]
    exact List.mem_take_iff_getElem.mpr ⟨0, Nat.lt_min.mpr ⟨by omega, by decide⟩, rfl⟩
  · exact mem_write h2 (le_length_itoaLookup h36) hc

/-- **Numbers in text.** For every 32-bit value and every radix from 2 to 36, `itoa` writes a string of at most 33
bytes with its NUL and nothing behind it; the string has no zero in front but for zero itself and reads back as the
value. `%#x` prints eight digits that read back as its argument; what `%d` prints reads back as the signed one. -/
theorem numbers_read_back (hvalue : value < 2 ^ 32) (h2 : 2 ≤ radix) (h36 : radix ≤ 36) (buf : Nat → UInt8)
    (env : Env) (s : State) (hmode : s.mode = .text) (harg : env.arg s.args = value) :
    (∃ buf' chars, itoa value buf radix = some buf' ∧ Text buf' chars ∧ chars.length + 1 ≤ 33 ∧
      (∀ i, 33 ≤ i → buf' i = buf i) ∧ (chars.head? = some 48 → value = 0) ∧ ReadsBack radix value chars) ∧
    (bytesAt (fun i => env.format (s.buf + i)) 3 = [37, 35, 120] →
      ∃ chars, (printfStep env)^[3] s = ⟨.text, s.buf + 3, s.args + 1, s.out ++ chars⟩ ∧ chars.length = 8 ∧
        ReadsBack 16 value chars) ∧
    (bytesAt (fun i => env.format (s.buf + i)) 2 = [37, 100] →
      ∃ chars, (printfStep env)^[2] s = ⟨.text, s.buf + 2, s.args + 1, s.out ++ chars⟩ ∧
        readSigned itoaLookup 10 45 chars = some (i32 value)) := by
  have hlen := length_numeral h2 hvalue
  refine ⟨?_, fun hformat => ?_, fun hformat => ?_⟩
  · obtain ⟨buf', hitoa, htext, hkept⟩ := itoa_text h2 h36 hvalue buf
    refine ⟨buf', _, hitoa, htext, by omega, fun i hi => hkept i (by omega), ?_, readsBack_padded h2 h36 0 value⟩
    exact head_write h2 (le_length_itoaLookup h36) itoaLookup_nodup
  · have hhex : (numeral 16 value).length ≤ 8 := length_write_le (by decide) (by decide) (by omega)
    refine ⟨_, printfStep_hexPadded hmode hformat (by rw [harg]; exact hexPadded_eq hvalue _), ?_,
      readsBack_padded (by decide) (by decide) _ value⟩
    rw [List.length_append, List.length_replicate]
    omega
  · refine ⟨_, printfStep_decimal hmode hformat (by rw [harg]; exact decimal_eq value _), ?_⟩
    have hnodup := itoaLookup_nodup
    by_cases hneg : i32 value < 0
    · rw [if_pos hneg, List.singleton_append]
      refine (readSigned_minus (by decide) (by decide) hnodup 45 _).trans (congrArg some ?_)
      omega
    · rw [if_neg hneg, List.nil_append]
      refine (readSigned_write (by decide) (by decide) hnodup (by decide) _).trans (congrArg some ?_)
      omega

/-- `printf("%d", -2147483648)`, and the same word in base 2. -/
theorem numbers_read_back_least :
    (∃ buf' chars, itoa (2 ^ 31) (fun _ => 0) 2 = some buf' ∧ Text buf' chars ∧ chars.length + 1 ≤ 33 ∧
      ReadsBack 2 (2 ^ 31) chars) ∧
    ∃ chars, (printfStep ⟨ofList [37, 100], fun _ => 2 ^ 31, fun _ => [], fun _ => 0⟩)^[2] State.start =
      ⟨.text, 2, 1, chars⟩ ∧ readSigned itoaLookup 10 45 chars = some (-2 ^ 31) := by
  obtain ⟨⟨buf', chars, hitoa, htext, hlen, -, -, hread⟩, -, hdecimal⟩ :=
    numbers_read_back (show 2 ^ 31 < 2 ^ 32 by decide) (le_refl 2) (by decide) (fun _ => 0)
      ⟨ofList [37, 100], fun _ => 2 ^ 31, fun _ => [], fun _ => 0⟩ State.start rfl rfl
  exact ⟨⟨buf', chars, hitoa, htext, hlen, hread⟩, hdecimal rfl⟩

end BasicOs
