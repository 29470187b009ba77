import BasicOs.Lib.Bytes
import BasicOs.Lib.Run

/-!
# `printf`

The scanner of `lib.c` as a machine with one step for each byte of the format, and the functions its conversions use.

* `strrev`, `itoa` : on a buffer, as the loops write it;
* `conversion` : the characters a conversion prints, if it is one that takes an argument;
* `printfStep` : the machine; `Printf.State` has the place in the format, the number of words taken from the stack and
  the characters printed;
* `printf_verbatim_iff` : a string is printed as it stands, without an argument and up to its NUL, exactly if it has no
  `%`;
* `printf_reads_iff` : how far the format is read.
-/

namespace BasicOs
open Bytes Run

/-! ## Numbers -/

/-- `lookup` of `itoa`: the digits, then the capital letters. -/
def itoaLookup : List UInt8 := (List.range 10).map (fun i => UInt8.ofNat (48 + i)) ++
  (List.range 26).map fun i => UInt8.ofNat (65 + i)

/-- The loop of `strrev`; `end` is signed, and -1 for an empty string. -/
def strrevLoop : Nat → Int → Int → (Nat → UInt8) → Nat → UInt8
  | 0, _, _, s => s
  | fuel + 1, first, last, s =>
    if first < last then
      let tmp := s last.toNat
      let s := Function.update s last.toNat (s first.toNat)
      strrevLoop fuel (first + 1) (last - 1) (Function.update s first.toNat tmp)
    else s

/-- `strrev`, on a string of less than 64 bytes. -/
def strrev (s : Nat → UInt8) : Nat → UInt8 :=
  let len := strnlen s 64
  strrevLoop len 0 ((len : Int) - 1) s

/-- The loop of `itoa`: the digits from the lowest place on, and where the next one goes. A value below `2^32` has at
most 32 of them in any radix from 2 on. -/
def itoaLoop (radix : Nat) : Nat → Nat → (Nat → UInt8) → Nat → Option ((Nat → UInt8) × Nat)
  | fuel, newval, buf, pos =>
    if newval = 0 then some (buf, pos)
    else
      match fuel with
      | 0 => none
      | fuel + 1 =>
        itoaLoop radix fuel (newval / radix) (Function.update buf pos (itoaLookup.getD (newval % radix) 0)) (pos + 1)

/-- `itoa`: the buffer; `none` for a loop that does not end. -/
def itoa (value : Nat) (buf : Nat → UInt8) (radix : Nat) : Option (Nat → UInt8) :=
  if value = 0 then some (Function.update (Function.update buf 0 48) 1 0)
  else (itoaLoop radix 32 value buf 0).map fun (buf, pos) => strrev (Function.update buf pos 0)

/-- What `puts` prints of a buffer. -/
def putsChars (buf : Nat → UInt8) : List UInt8 := cstr (bytesAt buf 64)

/-- `%#x`: the digits go behind eight bytes, which take the zeros. -/
def hexPadded (value : Nat) (convBuf : Nat → UInt8) : Option (List UInt8) :=
  (itoa value (fun i => convBuf (8 + i)) 16).map fun digits =>
    let startingIndex := strnlen digits 64
    let convBuf := fun i => if 8 ≤ i then digits (i - 8) else if startingIndex ≤ i then 48 else convBuf i
    putsChars fun i => convBuf (startingIndex + i)

/-- `%d`. -/
def decimal (word : Nat) (convBuf : Nat → UInt8) : Option (List UInt8) :=
  let value := i32 word
  if value < 0 then
    (itoa (u32 (-value).toNat) (fun i => convBuf (1 + i)) 10).map fun digits => 45 :: putsChars digits
  else (itoa value.toNat convBuf 10).map putsChars

/-! ## The scanner -/

namespace Printf

/-- Between two conversions, or after the `%` of one, where `#` has been seen or not. -/
inductive Mode
  | text
  | conv (alternate : Bool)
  deriving DecidableEq

/-- What `printf` is called with: the bytes at the format, the words on the stack after it, the strings that words
point to, and what the buffer of a conversion holds before it is written. -/
structure Env where
  format : Nat → UInt8
  arg : Nat → Nat
  string : Nat → List UInt8
  stale : Nat → UInt8

/-- `buf`, as an index into the format; how far `esp` has moved; and the characters given to `putc`. -/
structure State where
  mode : Mode
  buf : Nat
  args : Nat
  out : List UInt8

def State.start : State := ⟨.text, 0, 0, []⟩

end Printf

open Printf

/-- The characters of a conversion that takes an argument, for its letter; `none` for any other letter. -/
def conversion (env : Env) (alternate : Bool) (letter : UInt8) (word : Nat) : Option (List UInt8) :=
  if letter = 120 then
    if alternate then hexPadded word env.stale else (itoa word env.stale 16).map putsChars
  else if letter = 117 then (itoa word env.stale 10).map putsChars
  else if letter = 100 then decimal word env.stale
  else if letter = 99 then some [UInt8.ofNat word]
  else if letter = 115 then some (env.string word)
  else none

/-- One byte of the format. The machine stands still at a NUL outside a conversion; inside one, a NUL is passed like
any letter without a conversion. -/
def printfStep (env : Env) (s : State) : State :=
  let c := env.format s.buf
  match s.mode with
  | .text =>
    if c = 0 then s
    else if c = 37 then { s with mode := .conv false, buf := s.buf + 1 }
    else { s with buf := s.buf + 1, out := s.out ++ [c] }
  | .conv alternate =>
    if c = 37 then { s with mode := .text, buf := s.buf + 1, out := s.out ++ [37] }
    else if c = 35 then { s with mode := .conv true, buf := s.buf + 1 }
    else
      match conversion env alternate c (env.arg s.args) with
      | some chars => { mode := .text, buf := s.buf + 1, args := s.args + 1, out := s.out ++ chars }
      | none => { s with mode := .text, buf := s.buf + 1 }

/-! ## What is printed, and how far the format is read -/

namespace Printf

variable {env : Env} {name : List UInt8} {s t : State}

/-- `printf` comes to its end in `s`. -/
def Ends (env : Env) (s : State) : Prop := Leads (printfStep env) State.start s ∧ printfStep env s = s

/-- It prints the string as it stands, takes no argument and stops at the NUL. -/
def Verbatim (env : Env) (name : List UInt8) : Prop :=
  ∃ s, Ends env s ∧ s.out = name ∧ s.args = 0 ∧ s.buf = name.length

/-- The mode after a byte that is not a NUL. -/
def Mode.next : Mode → UInt8 → Mode
  | .text, c => if c = 37 then .conv false else .text
  | .conv _, c => if c = 35 then .conv true else .text

/-- The string ends inside a conversion. -/
def EndsOpen (name : List UInt8) : Prop := name.foldl Mode.next .text ≠ .text

instance (name : List UInt8) : Decidable (EndsOpen name) := inferInstanceAs (Decidable (_ ≠ _))

end Printf

variable {env : Env} {name : List UInt8} {s t : State}

theorem printfStep_mono (env : Env) (s : State) : s.buf ≤ (printfStep env s).buf := by
  unfold printfStep
  cases s.mode with
  | text =>
    dsimp only
    split_ifs
    · exact le_refl _
    · exact Nat.le_succ _
    · exact Nat.le_succ _
  | conv alternate =>
    dsimp only
    split_ifs
    · exact Nat.le_succ _
    · exact Nat.le_succ _
    · split <;> exact Nat.le_succ _

/-- A byte that is not a NUL. -/
theorem printfStep_byte (h : env.format s.buf ≠ 0) :
    (printfStep env s).buf = s.buf + 1 ∧ (printfStep env s).mode = s.mode.next (env.format s.buf) := by
  unfold printfStep
  cases s.mode with
  | text =>
    dsimp only [Mode.next]
    rw [if_neg h]
    split_ifs <;> exact ⟨rfl, rfl⟩
  | conv alternate =>
    dsimp only [Mode.next]
    split_ifs with hpercent halternate
    · rw [hpercent] at halternate
      cases halternate
    · exact ⟨rfl, rfl⟩
    · exact ⟨rfl, rfl⟩
    · split <;> exact ⟨rfl, rfl⟩

/-- A `%` has been read for which nothing was printed, or an argument was taken. -/
theorem printfStep_behind (h : 0 < s.args ∨ s.out.length < s.buf) :
    0 < (printfStep env s).args ∨ (printfStep env s).out.length < (printfStep env s).buf := by
  have hone : ∀ c, 0 < s.args ∨ (s.out ++ [c]).length < s.buf + 1 := by
    intro c
    rw [List.length_append]
    exact h.imp_right Nat.succ_lt_succ
  have hnone : 0 < s.args ∨ s.out.length < s.buf + 1 := h.imp_right Nat.lt_succ_of_lt
  unfold printfStep
  cases s.mode with
  | text =>
    dsimp only
    split_ifs
    · exact h
    · exact hnone
    · exact hone _
  | conv alternate =>
    dsimp only
    split_ifs
    · exact hone _
    · exact hnone
    · split
      · exact Or.inl (Nat.succ_pos _)
      · exact hnone

/-- Up to the first `%` the bytes are printed as they stand. -/
theorem leads_text (hfmt : ∀ i < name.length, env.format i = ofList name i) (hnul : 0 ∉ name) {n : Nat}
    (hn : n ≤ name.length) (hplain : 37 ∉ name.take n) :
    Leads (printfStep env) State.start ⟨.text, n, 0, name.take n⟩ := by
  induction n with
  | zero => exact .refl _ _
  | succ n ih =>
    have hbyte : env.format n = name[n] := (hfmt n hn).trans (List.getD_eq_getElem _ _ hn)
    rw [List.take_succ_eq_append_getElem hn] at hplain ⊢
    obtain ⟨hbefore, hlast⟩ := not_or.mp (mt List.mem_append.mpr hplain)
    refine (ih (Nat.le_of_succ_le hn) hbefore).trans (.head ?_)
    have hstep : printfStep env ⟨.text, n, 0, name.take n⟩ = ⟨.text, n + 1, 0, name.take n ++ [name[n]]⟩ := by
      have h0 : name[n] ≠ 0 := fun h0 => hnul (h0 ▸ List.getElem_mem hn)
      have h37 : name[n] ≠ 37 := fun h37 => hlast (List.mem_singleton.mpr h37.symm)
      unfold printfStep
      dsimp only
      rw [hbyte, if_neg h0, if_neg h37]
    rw [hstep]
    exact .refl _ _

/-- A string is printed verbatim exactly if it has no `%`. -/
theorem printf_verbatim_iff (hfmt : ∀ i ≤ name.length, env.format i = ofList name i) (hnul : 0 ∉ name) :
    Verbatim env name ↔ 37 ∉ name := by
  constructor
  · rintro ⟨s, ⟨hs, hfix⟩, hout, hargs, hbuf⟩ hpercent
    obtain ⟨before, rest, rfl, hbefore⟩ := List.eq_append_cons_of_mem hpercent
    have hlt : before.length < (before ++ 37 :: rest).length := by
      rw [List.length_append]
      exact Nat.lt_add_of_pos_right (Nat.succ_pos _)
    have htake : (before ++ 37 :: rest).take before.length = before := List.take_left' rfl
    have hreach := leads_text (fun i hi => hfmt i hi.le) hnul hlt.le (by rwa [htake])
    rw [htake] at hreach
    have hopen : printfStep env ⟨.text, before.length, 0, before⟩ = ⟨.conv false, before.length + 1, 0, before⟩ := by
      have hbyte : env.format before.length = 37 := by
        rw [hfmt _ hlt.le, ofList, List.getD_append_right _ _ _ _ (le_refl _), Nat.sub_self, List.getD_cons_zero]
      unfold printfStep
      dsimp only
      rw [hbyte, if_neg (by decide), if_pos rfl]
    -- the run ends behind its place in the format, where the string would have been printed whole
    have hpast := hreach.trans (.head (.refl (printfStep env) _))
    rw [hopen] at hpast
    have hrest := (hs.to_fixed hpast hfix).invariant (I := fun s => 0 < s.args ∨ s.out.length < s.buf)
      (Or.inr (Nat.lt_succ_self before.length)) fun _ => printfStep_behind
    rw [hargs, hout, hbuf] at hrest
    exact hrest.elim (lt_irrefl 0) (lt_irrefl _)
  · intro hplain
    refine ⟨_, ⟨leads_text (fun i hi => hfmt i hi.le) hnul (le_refl _) (by rwa [List.take_length]), ?_⟩, ?_, rfl, rfl⟩
    · unfold printfStep
      dsimp only
      rw [hfmt _ (le_refl _), ofList, List.getD_eq_default _ _ (le_refl _), if_pos rfl]
    · exact List.take_length

/-- The state in which the end of the string is reached. -/
theorem leads_end (hfmt : ∀ i < name.length, env.format i = ofList name i) (hnul : 0 ∉ name) {n : Nat}
    (hn : n ≤ name.length) :
    ∃ s, Leads (printfStep env) State.start s ∧ s.buf = n ∧ s.mode = (name.take n).foldl Mode.next .text := by
  induction n with
  | zero => exact ⟨_, .refl _ _, rfl, rfl⟩
  | succ n ih =>
    obtain ⟨s, hs, hbuf, hmode⟩ := ih (Nat.le_of_succ_le hn)
    have hbyte : env.format s.buf = name[n] := by
      rw [hbuf]
      exact (hfmt n hn).trans (List.getD_eq_getElem _ _ hn)
    have h0 : env.format s.buf ≠ 0 := fun h0 => hnul (h0 ▸ hbyte ▸ List.getElem_mem hn)
    obtain ⟨hbuf', hmode'⟩ := printfStep_byte h0
    refine ⟨_, hs.trans (.head (.refl _ _)), by rw [hbuf', hbuf], ?_⟩
    rw [hmode', hmode, hbyte, List.take_succ_eq_append_getElem hn, List.foldl_append]
    rfl

/-- A NUL inside a conversion is passed. -/
theorem printfStep_nul_conv {alternate : Bool} (hmode : s.mode = .conv alternate) (h0 : env.format s.buf = 0) :
    (printfStep env s).buf = s.buf + 1 ∧ (printfStep env s).mode = .text := by
  unfold printfStep
  rw [hmode, h0]
  exact ⟨rfl, rfl⟩

theorem printfStep_nul_text (hmode : s.mode = .text) (h0 : env.format s.buf = 0) : printfStep env s = s := by
  unfold printfStep
  rw [hmode]
  exact if_pos h0

/-- In an array of `n + 1` bytes, a string of at most `n` is read inside the array, unless it fills the array and ends
inside a conversion. -/
theorem printf_reads_iff {n : Nat} (hlen : name.length ≤ n) (hfmt : ∀ i ≤ n, env.format i = ofList name i)
    (hnul : 0 ∉ name) :
    (∀ s, Leads (printfStep env) State.start s → s.buf ≤ n) ↔ ¬ (name.length = n ∧ EndsOpen name) := by
  obtain ⟨e, he, hbuf, hmode⟩ := leads_end (fun i hi => hfmt i (hi.le.trans hlen)) hnul (le_refl _)
  rw [List.take_length] at hmode
  have hzero : ∀ i, name.length ≤ i → i ≤ n → env.format i = 0 := by
    intro i h1 h2
    rw [hfmt i h2, ofList, List.getD_eq_default _ _ h1]
  have hz : env.format e.buf = 0 := by rw [hbuf]; exact hzero _ (le_refl _) hlen
  have hbelow : ∀ t, Leads (printfStep env) State.start t → printfStep env t = t → t.buf ≤ n →
      ∀ s, Leads (printfStep env) State.start s → s.buf ≤ n := by
    intro t ht hfix hn s hs
    exact ((ht.to_fixed hs hfix).invariant (I := fun u => s.buf ≤ u.buf) (le_refl _)
      fun u hu => hu.trans (printfStep_mono env u)).trans hn
  cases hend : e.mode with
  | text =>
    rw [hend] at hmode
    exact iff_of_true (hbelow e he (printfStep_nul_text hend hz) (hbuf.trans_le hlen)) fun h => h.2 hmode.symm
  | conv alternate =>
    have hopen : EndsOpen name := by
      unfold EndsOpen
      rw [← hmode, hend]
      exact Mode.noConfusion
    obtain ⟨hbuf', hmode'⟩ := printfStep_nul_conv hend hz
    rw [hbuf] at hbuf'
    have hnext : Leads (printfStep env) State.start (printfStep env e) := he.trans (.head (.refl _ _))
    constructor
    · rintro hall ⟨hfull, -⟩
      have := hall _ hnext
      omega
    · intro hnot
      have hroom : name.length + 1 ≤ n := lt_of_le_of_ne hlen fun hfull => hnot ⟨hfull, hopen⟩
      have hfix := printfStep_nul_text hmode' (by rw [hbuf']; exact hzero _ (Nat.le_succ _) hroom)
      exact hbelow _ hnext hfix (hbuf'.trans_le hroom)

end BasicOs
