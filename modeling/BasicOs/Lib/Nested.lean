import BasicOs.Lib.Trap
import BasicOs.Lib.Run

/-!
# Code of the inner level, and interrupts within interrupts

* `Local`, `Local.exec` : what inner code sees of itself, with its part of the stack as a list; `Machine.At` : the
  processor is there; `Machine.At.exec` : it does what `Local.exec` says;
* `Machine.Sound.enter`, `Machine.At.leave`, `Machine.At.iret` : in through a gate, over a function, and out again;
* `Machine.OnWay` : the processor is on the way to where `Local.exec` ends: `step_entry` at a function, `step_iret` at
  an `iret`;
* `Handlers`, `Over` : handlers that put back what they find, and handlers over handlers; `Handlers.interrupted_step` :
  whoever does not mind one of them does not mind any number.
-/

namespace Trap
open Run

variable {F : Type} {M : Machine F} {W W' : Nat → Prop} {c d m m' : Cpu} {e back : Word} {ws vs : List Word} {w : Word}

/-! ## Code of the inner level -/

/-- What inner code sees of itself: the registers and flags, and what is on the stack since it was entered. -/
structure Local where
  regs : Regs
  eflags : Word
  esp : Word
  stack : List Word

namespace Local

def push (s : Local) (w : Word) : Local := { s with esp := s.esp - 4, stack := w :: s.stack }

def pushAll (s : Local) (ws : List Word) : Local := ws.foldl push s

def drop (s : Local) (n : Nat) : Local := { s with esp := s.esp + BitVec.ofNat 32 (4 * n), stack := s.stack.drop n }

/-- What an instruction does to it, and where it goes on. `none` for what is not local. -/
def exec (next : Word) (s : Local) : Instr → Option (Word × Local)
  | .pushl r => some (next, s.push (s.regs.get r))
  | .pushlImm w => some (next, s.push w)
  | .popl r => s.stack.head?.map fun w => (next, { s.drop 1 with regs := s.regs.set w r })
  | .pushfl => some (next, s.push s.eflags)
  | .popfl => s.stack.head?.map fun w => (next, { s.drop 1 with eflags := w })
  | .pushal =>
    let r := s.regs
    some (next, s.pushAll [r.eax, r.ecx, r.edx, r.ebx, s.esp, r.ebp, r.esi, r.edi])
  | .popal =>
    match s.stack with
    | edi :: esi :: ebp :: _ :: ebx :: edx :: ecx :: eax :: _ =>
      some (next, { s.drop 8 with regs := ⟨eax, ecx, edx, ebx, ebp, esi, edi⟩ })
    | _ => none
  | .movlImm w r => some (next, { s with regs := s.regs.set w r })
  | .cmplImm w r => some (next, { s with eflags := compared w (s.regs.get r) s.eflags })
  | .orlImm w r =>
    some (next, { s with
      regs := s.regs.set (s.regs.get r ||| w) r
      eflags := compared 0 (s.regs.get r ||| w) s.eflags })
  | .jb target => some (if carry s.eflags then target else next, s)
  | .ja target => some (if !carry s.eflags && !zero s.eflags then target else next, s)
  | .jmp target => some (target, s)
  | .call target => some (target, s.push next)
  | .callTable table r => (table[(s.regs.get r).toNat]?).map fun target => (target, s.push next)
  | .ret => s.stack.head?.map fun w => (w, s.drop 1)
  | .cli => some (next, { s with eflags := setFlag 9 false s.eflags })
  | .sti => some (next, { s with eflags := setFlag 9 true s.eflags })
  | .movlStack _ _ | .int _ | .iret => none

end Local

/-- The jumps behind a comparison of `v` with `w`. -/
theorem Local.exec_jb (s : Local) (w v flags target next : Word) :
    Local.exec next { s with eflags := compared w v flags } (.jb target) =
      some (if v.toNat < w.toNat then target else next, { s with eflags := compared w v flags }) := by
  unfold exec
  dsimp only
  rw [carry_compared]
  simp only [decide_eq_true_iff]

theorem Local.exec_ja (s : Local) (w v flags target next : Word) :
    Local.exec next { s with eflags := compared w v flags } (.ja target) =
      some (if w.toNat < v.toNat then target else next, { s with eflags := compared w v flags }) := by
  unfold exec
  dsimp only
  rw [carry_compared, zero_compared]
  congr 2
  refine if_congr ?_ rfl rfl
  rw [Bool.and_eq_true, Bool.not_eq_true', Bool.not_eq_true', decide_eq_false_iff_not, decide_eq_false_iff_not,
    BitVec.toNat_eq]
  omega

/-- Code that was entered from `c` is at `e` and sees `s`. -/
structure Machine.At (M : Machine F) (W : Nat → Prop) (c : Cpu) (e : Word) (s : Local) (m : Cpu) : Prop where
  eip : m.eip = e
  regs : m.regs = s.regs
  eflags : m.eflags = s.eflags
  esp : m.esp = s.esp
  cs : privilege m.cs = 0
  ss : m.ss = if privilege c.cs = 0 then c.ss else M.tables.ss0
  base : s.esp.toNat + 4 * s.stack.length = M.level c
  holds : Holds m.mem s.esp.toNat s.stack
  kept : M.Kept W (M.level c) c.mem m.mem
  low : M.bottom ≤ s.esp.toNat
  top : M.level c ≤ M.tables.esp0.toNat

variable {s : Local}

theorem Machine.level_lt (M : Machine F) (c : Cpu) : M.level c < 2 ^ 32 := by
  unfold level
  split_ifs
  · exact c.esp.isLt
  · exact M.tables.esp0.isLt

theorem Machine.At.mono (h : M.At W c e s m) (hW : ∀ a, W a → W' a) : M.At W' c e s m :=
  { h with kept := h.kept.mono hW (Nat.le_refl _) }

theorem Machine.At.goto (h : M.At W c e s m) (e' : Word) : M.At W c e' s { m with eip := e' } := { h with eip := rfl }

theorem Machine.At.setRegs (h : M.At W c e s m) (r : Regs) :
    M.At W c e { s with regs := r } { m with regs := r } := { h with regs := rfl }

theorem Machine.At.setReg (h : M.At W c e s m) (w : Word) (r : Reg) :
    M.At W c e { s with regs := s.regs.set w r } (m.setReg w r) := by
  unfold Cpu.setReg
  rw [h.regs]
  exact h.setRegs _

theorem Machine.At.setFlags (h : M.At W c e s m) (f : Word) :
    M.At W c e { s with eflags := f } { m with eflags := f } := { h with eflags := rfl }

theorem toNat_sub_four {esp : Word} (h : 4 ≤ esp.toNat) : (esp - 4).toNat = esp.toNat - 4 := by
  bv_omega

theorem toNat_add_words {esp : Word} {n : Nat} (h : esp.toNat + n < 2 ^ 32) :
    (esp + BitVec.ofNat 32 n).toNat = esp.toNat + n := by
  rw [BitVec.toNat_add, BitVec.toNat_ofNat, Nat.mod_eq_of_lt (show n < 2 ^ 32 by omega), Nat.mod_eq_of_lt h]

theorem Machine.At.push (h : M.At W c e s m) (hroom : M.bottom + 4 ≤ s.esp.toNat) (w : Word) :
    M.At W c e (s.push w) (m.push w) := by
  have hbase := h.base
  have hesp := toNat_sub_four (show 4 ≤ s.esp.toNat by omega)
  have hmesp : (m.esp - 4).toNat = s.esp.toNat - 4 := by rw [h.esp, hesp]
  have hrest : Holds (store m.mem (s.esp.toNat - 4) w) (s.esp.toNat - 4 + 4) s.stack := by
    rw [Nat.sub_add_cancel (by omega)]
    exact h.holds.congr fun b hb _ => store_of_ne (by omega)
  refine ⟨h.eip, h.regs, h.eflags, congrArg (· - 4) h.esp, h.cs, h.ss, ?_, ?_, ?_, ?_, h.top⟩
  · show (s.esp - 4).toNat + 4 * (w :: s.stack).length = M.level c
    rw [hesp, List.length_cons]
    omega
  · show Holds (store m.mem (m.esp - 4).toNat w) (s.esp - 4).toNat (w :: s.stack)
    rw [hmesp, hesp]
    exact ⟨load_store _ _ _, hrest⟩
  · show M.Kept W (M.level c) c.mem (store m.mem (m.esp - 4).toNat w)
    rw [hmesp]
    exact h.kept.store (by omega) (by omega) w
  · show M.bottom ≤ (s.esp - 4).toNat
    rw [hesp]
    omega

theorem Machine.At.pushAll (h : M.At W c e s m) (hroom : M.bottom + 4 * ws.length ≤ s.esp.toNat) :
    M.At W c e (s.pushAll ws) (m.pushAll ws) := by
  induction ws generalizing m s with
  | nil => exact h
  | cons w ws ih =>
    rw [List.length_cons] at hroom
    refine ih (h.push (by omega) w) ?_
    have hesp : (s.push w).esp.toNat = s.esp.toNat - 4 := toNat_sub_four (by omega)
    rw [hesp]
    omega

theorem Machine.At.word (h : M.At W c e s m) {i : Nat} (hi : s.stack[i]? = some w) : m.word i = w := by
  have hlt := (List.getElem?_eq_some_iff.mp hi).1
  have hbase := h.base
  have hlevel := M.level_lt c
  unfold Cpu.word Cpu.above
  rw [h.esp, toNat_add_words (by omega)]
  exact h.holds.get hi

theorem Machine.At.drop (h : M.At W c e s m) {n : Nat} (hn : n ≤ s.stack.length) :
    M.At W c e (s.drop n) (m.drop n) := by
  have hbase := h.base
  have hlevel := M.level_lt c
  have hlow := h.low
  have hesp : (s.esp + BitVec.ofNat 32 (4 * n)).toNat = s.esp.toNat + 4 * n := toNat_add_words (by omega)
  refine ⟨h.eip, h.regs, h.eflags, congrArg (· + BitVec.ofNat 32 (4 * n)) h.esp, h.cs, h.ss, ?_, ?_, h.kept, ?_, h.top⟩
  · show (s.esp + BitVec.ofNat 32 (4 * n)).toNat + 4 * (s.stack.drop n).length = M.level c
    rw [hesp, List.length_drop]
    omega
  · show Holds m.mem (s.esp + BitVec.ofNat 32 (4 * n)).toNat (s.stack.drop n)
    have hsplit := h.holds
    rw [← List.take_append_drop n s.stack] at hsplit
    have hrest := hsplit.drop
    rw [List.length_take, Nat.min_eq_left hn] at hrest
    rw [hesp]
    exact hrest
  · show M.bottom ≤ (s.esp + BitVec.ofNat 32 (4 * n)).toNat
    rw [hesp]
    omega

theorem Machine.At.head (h : M.At W c e s m) (hw : s.stack.head? = some w) :
    m.word 0 = w ∧ M.At W c e (s.drop 1) (m.drop 1) := by
  have hword : s.stack[0]? = some w := by rwa [← List.head?_eq_getElem?]
  have hlt := (List.getElem?_eq_some_iff.mp hword).1
  exact ⟨h.word hword, h.drop (by omega)⟩

/-- **The inner level.** The processor does what the local meaning of the instruction says. -/
theorem Machine.At.exec (h : M.At W c e s m) (hroom : M.bottom + 64 ≤ s.esp.toNat) {t : Tables} {next e' : Word}
    {i : Instr} {s' : Local} (hx : s.exec next i = some (e', s')) :
    ∃ m', Trap.exec t next m i = some m' ∧ M.At W c e' s' m' := by
  cases i with
  | pushl r =>
    cases hx
    refine ⟨_, rfl, ?_⟩
    rw [h.regs]
    exact (h.push (by omega) _).goto _
  | pushlImm w =>
    cases hx
    exact ⟨_, rfl, (h.push (by omega) _).goto _⟩
  | popl r =>
    obtain ⟨w, hw, he⟩ := Option.map_eq_some_iff.mp hx
    cases he
    obtain ⟨hword, hdrop⟩ := h.head hw
    refine ⟨_, rfl, ?_⟩
    rw [hword]
    exact (hdrop.setReg w r).goto next
  | pushfl =>
    cases hx
    refine ⟨_, rfl, ?_⟩
    rw [h.eflags]
    exact (h.push (by omega) _).goto _
  | popfl =>
    obtain ⟨w, hw, he⟩ := Option.map_eq_some_iff.mp hx
    cases he
    obtain ⟨hword, hdrop⟩ := h.head hw
    refine ⟨{ m.drop 1 with eflags := w, eip := next }, ?_, (hdrop.setFlags w).goto next⟩
    unfold Trap.exec
    dsimp only
    rw [if_pos h.cs, hword]
  | pushal =>
    cases hx
    refine ⟨_, rfl, ?_⟩
    rw [h.regs, h.esp]
    exact (h.pushAll (by simp only [List.length_cons, List.length_nil]; omega)).goto _
  | popal =>
    obtain ⟨regs, eflags, esp, stack⟩ := s
    match stack, hx, h with
    | edi :: esi :: ebp :: x :: ebx :: edx :: ecx :: eax :: ws, hx, h =>
      cases hx
      refine ⟨{ m.drop 8 with regs := ⟨eax, ecx, edx, ebx, ebp, esi, edi⟩, eip := next }, ?_, ?_⟩
      · unfold Trap.exec
        dsimp only
        rw [h.word (i := 0) rfl, h.word (i := 1) rfl, h.word (i := 2) rfl, h.word (i := 4) rfl, h.word (i := 5) rfl,
          h.word (i := 6) rfl, h.word (i := 7) rfl]
      · exact ((h.drop (n := 8) (by simp)).setRegs _).goto next
  | movlImm w r =>
    cases hx
    exact ⟨_, rfl, (h.setReg w r).goto next⟩
  | cmplImm w r =>
    cases hx
    refine ⟨{ m with eflags := compared w (s.regs.get r) s.eflags, eip := next }, ?_, (h.setFlags _).goto next⟩
    unfold Trap.exec
    rw [← h.regs, ← h.eflags]
  | orlImm w r =>
    cases hx
    refine ⟨_, rfl, ?_⟩
    rw [h.regs, h.eflags]
    exact ((h.setReg _ r).setFlags _).goto next
  | jb target =>
    cases hx
    refine ⟨_, rfl, ?_⟩
    rw [← h.eflags]
    exact h.goto _
  | ja target =>
    cases hx
    refine ⟨_, rfl, ?_⟩
    rw [← h.eflags]
    exact h.goto _
  | jmp target =>
    cases hx
    exact ⟨_, rfl, h.goto _⟩
  | call target =>
    cases hx
    exact ⟨_, rfl, (h.push (by omega) _).goto _⟩
  | callTable table r =>
    obtain ⟨target, htarget, he⟩ := Option.map_eq_some_iff.mp hx
    cases he
    refine ⟨{ m.push next with eip := e' }, ?_, (h.push (by omega) _).goto _⟩
    unfold Trap.exec
    dsimp only
    rw [h.regs, htarget]
    rfl
  | ret =>
    obtain ⟨w, hw, he⟩ := Option.map_eq_some_iff.mp hx
    cases he
    obtain ⟨hword, hdrop⟩ := h.head hw
    refine ⟨_, rfl, ?_⟩
    rw [hword]
    exact hdrop.goto _
  | cli =>
    cases hx
    refine ⟨{ m with eflags := setFlag 9 false s.eflags, eip := next }, ?_, (h.setFlags _).goto _⟩
    unfold Trap.exec
    dsimp only
    rw [if_pos h.cs, h.eflags]
  | sti =>
    cases hx
    refine ⟨{ m with eflags := setFlag 9 true s.eflags, eip := next }, ?_, (h.setFlags _).goto _⟩
    unfold Trap.exec
    dsimp only
    rw [if_pos h.cs, h.eflags]
  | movlStack disp r => cases hx
  | int v => cases hx
  | iret => cases hx

/-! ## In and out -/

theorem Local.pushAll_stack (s : Local) (ws : List Word) : (s.pushAll ws).stack = ws.reverse ++ s.stack := by
  induction ws generalizing s with
  | nil => rfl
  | cons w ws ih =>
    rw [List.reverse_cons, List.append_assoc]
    exact ih (s.push w)

theorem Local.pushAll_regs (s : Local) (ws : List Word) : (s.pushAll ws).regs = s.regs := by
  induction ws generalizing s with
  | nil => rfl
  | cons w ws ih => exact ih (s.push w)

/-- What lies on the stack of code that was entered from `c`. -/
def frame (c : Cpu) (back : Word) : List Word := (pushed c back).reverse

/-- What code sees that is entered from `c`. -/
def entered (t : Tables) (g : Gate) (back : Word) (c : Cpu) : Local :=
  { (Local.mk c.regs c.eflags (if privilege c.cs = 0 then c.esp else t.esp0) []).pushAll (pushed c back) with
    eflags := if g.trap then c.eflags else setFlag 9 false c.eflags }

theorem entered_regs (t : Tables) (g : Gate) (back : Word) (c : Cpu) : (entered t g back c).regs = c.regs :=
  Local.pushAll_regs _ _

theorem entered_stack (t : Tables) (g : Gate) (back : Word) (c : Cpu) :
    (entered t g back c).stack = frame c back := by
  unfold entered frame
  dsimp only
  rw [Local.pushAll_stack, List.append_nil]

theorem pushed_length (c : Cpu) (back : Word) : (pushed c back).length ≤ 5 := by
  unfold pushed
  split_ifs
  · simp
  · simp

theorem Cpu.pushAll_setCs (c : Cpu) (cs : Word) (ws : List Word) :
    ({ c with cs := cs }).pushAll ws = { c.pushAll ws with cs := cs } := by
  induction ws generalizing c with
  | nil => rfl
  | cons w ws ih => exact ih (c.push w)

theorem Machine.Sound.enter (hM : M.Sound) {v : UInt8} (hroom : M.bottom + 64 ≤ M.level c)
    (htop : M.level c ≤ M.tables.esp0.toNat) :
    M.At W c (M.tables.gate v).offset (entered M.tables (M.tables.gate v) back c)
      (Trap.enter M.tables (M.tables.gate v) back c) := by
  have hlen := pushed_length c back
  generalize hesp : (if privilege c.cs = 0 then c.esp else M.tables.esp0) = esp
  generalize hss : (if privilege c.cs = 0 then c.ss else M.tables.ss0) = ss
  have hlevel : M.level c = esp.toNat := by
    unfold Machine.level
    rw [← hesp]
    split_ifs
    · rfl
    · rfl
  rw [hlevel] at hroom
  have hstart : M.At W c c.eip ⟨c.regs, c.eflags, esp, []⟩
      { c with esp := esp, ss := ss, cs := (M.tables.gate v).selector } :=
    ⟨rfl, rfl, rfl, rfl, hM.gates v, hss.symm, hlevel.symm, trivial, .refl _ _,
      by show M.bottom ≤ esp.toNat; omega, htop⟩
  have houter : (if privilege c.cs = 0 then c else { c with esp := M.tables.esp0, ss := M.tables.ss0 }) =
      { c with esp := esp, ss := ss } := by
    rw [← hesp, ← hss]
    split_ifs
    · rfl
    · rfl
  unfold entered Trap.enter
  rw [hesp, houter]
  dsimp only
  generalize pushed c back = ws at hlen ⊢
  have hfits : M.bottom + 4 * ws.length ≤ esp.toNat := by omega
  have hpushed := hstart.pushAll hfits
  have hcs := Cpu.pushAll_setCs { c with esp := esp, ss := ss } (M.tables.gate v).selector ws
  rw [hcs] at hpushed
  generalize ({ c with esp := esp, ss := ss } : Cpu).pushAll ws = p at hpushed ⊢
  exact ⟨rfl, hpushed.regs, rfl, hpushed.esp, hM.gates v, hpushed.ss, hpushed.base, hpushed.holds, hpushed.kept,
    hpushed.low, htop⟩

/-- The `n` words at `a`. -/
def wordsAt (mem : Mem) (a : Nat) : Nat → List Word
  | 0 => []
  | n + 1 => load mem a :: wordsAt mem (a + 4) n

theorem wordsAt_length (mem : Mem) (a n : Nat) : (wordsAt mem a n).length = n := by
  induction n generalizing a with
  | zero => rfl
  | succ n ih => exact congrArg (· + 1) (ih (a + 4))

theorem Holds.prepend {mem : Mem} {a n : Nat} (h : Holds mem (a + 4 * n) ws) :
    Holds mem a (wordsAt mem a n ++ ws) := by
  induction n generalizing a with
  | zero => exact h
  | succ n ih =>
    refine ⟨rfl, ih ?_⟩
    rwa [show a + 4 + 4 * n = a + 4 * (n + 1) by omega]

/-- A function returns. It may have changed its arguments. -/
theorem Machine.At.leave (hM : M.Sound) {f : F} {ret : Word} {args rest : List Word} (h : M.At W c e s d)
    (hstack : s.stack = ret :: (args ++ rest)) (hargs : args.length = M.args f) (hr : M.Returns f d m)
    (hW : ∀ a, M.writable f a → W a) : ∃ args', args'.length = args.length ∧
      M.At W c ret ⟨m.regs, m.eflags, s.esp + 4, args' ++ rest⟩ m := by
  have hbase := h.base
  have hlow := h.low
  have htop := h.top
  have hlt := M.level_lt c
  have hholds := h.holds
  rw [hstack, List.length_cons, List.length_append, hargs] at hbase
  rw [hstack] at hholds
  have hesp : (s.esp + 4).toNat = s.esp.toNat + 4 := toNat_add_words (n := 4) (by omega)
  have hkept : M.Kept (M.writable f) (s.esp.toNat + 4 + 4 * M.args f) d.mem m.mem := by
    rw [← h.esp]
    exact hr.kept
  have hrest : Holds m.mem (s.esp.toNat + 4 + 4 * M.args f) rest := by
    rw [← hargs]
    refine hholds.2.drop.congr fun b hb hb' => hkept b (hM.apart f b (by omega) (by omega)) (Or.inr (by omega))
  refine ⟨wordsAt m.mem (s.esp.toNat + 4) (M.args f), by rw [wordsAt_length, hargs], ?_⟩
  refine ⟨?_, rfl, rfl, ?_, ?_, ?_, ?_, ?_, ?_, ?_, htop⟩
  · rw [hr.eip]
    exact h.word (by rw [hstack]; rfl)
  · rw [hr.esp, h.esp]
  · rw [hr.cs]
    exact h.cs
  · rw [hr.ss]
    exact h.ss
  · show (s.esp + 4).toNat + 4 * (wordsAt m.mem (s.esp.toNat + 4) (M.args f) ++ rest).length = M.level c
    rw [hesp, List.length_append, wordsAt_length]
    omega
  · show Holds m.mem (s.esp + 4).toNat _
    rw [hesp]
    exact hrest.prepend
  · exact h.kept.trans (hkept.mono hW (by omega))
  · show M.bottom ≤ (s.esp + 4).toNat
    omega

/-- The frame is taken from the stack: the program goes on with the registers that the inner code leaves. -/
theorem Machine.At.iret (h : M.At W c e s m) (hs : s.stack = frame c back) (t : Tables) (next : Word) :
    Trap.exec t next m .iret = some { c with regs := s.regs, eip := back, mem := m.mem } := by
  have hbase := h.base
  have hss := h.ss
  have hlt := M.level_lt c
  unfold frame pushed at hs
  unfold Machine.level at hbase hlt
  have hword : ∀ {i : Nat} {w : Word}, s.stack[i]? = some w → m.word i = w := h.word
  unfold Trap.exec
  dsimp only
  rw [if_neg (not_not_intro h.cs)]
  by_cases hp : privilege c.cs = 0
  · simp only [if_pos hp, List.nil_append, List.reverse_cons, List.reverse_nil, List.cons_append] at hs hbase hss hlt
    rw [hs] at hword hbase
    have hesp : (m.drop 3).esp = c.esp := by
      apply BitVec.eq_of_toNat_eq
      rw [← hbase, ← h.esp]
      exact toNat_add_words (n := 12) (by rw [h.esp]; simp at hbase; omega)
    rw [hword (i := 0) rfl, hword (i := 1) rfl, hword (i := 2) rfl, if_pos hp, hesp, h.regs, hss]
  · simp only [if_neg hp, List.reverse_cons, List.reverse_nil, List.nil_append, List.cons_append] at hs
    rw [hs] at hword
    rw [hword (i := 0) rfl, hword (i := 1) rfl, hword (i := 2) rfl, hword (i := 3) rfl, hword (i := 4) rfl, if_neg hp,
      h.regs]

theorem Machine.At.step_eq (h : M.At W c e s m) {i : Instr} {next : Word} (hcode : M.code e = some (i, next)) :
    M.step m .instr = Trap.exec M.tables next m i := by
  unfold Machine.step
  dsimp only
  rw [h.eip, hcode]
  rfl

theorem Machine.At.step_entry (hM : M.Sound) {f : F} (h : M.At W c (M.entry f) s m) : M.step m .instr = none := by
  unfold Machine.step
  dsimp only
  rw [h.eip, hM.entries]
  rfl

/-- What was entered from a resumed program was entered from the program. -/
theorem Machine.At.rebase (h : M.At W m e s d) (hr : M.Resumes W c m) : M.At W c e s d := by
  have hss := h.ss
  have hkept := h.kept
  rw [hr.level_eq] at hkept
  refine { h with ss := ?_, base := h.base.trans hr.level_eq, kept := hr.kept.trans hkept, top := ?_ }
  · rw [hss, hr.same]
  · rw [← hr.level_eq]
    exact h.top

theorem Machine.At.resumed (h : M.At W c e s m) : M.Resumes W { c with regs := s.regs, eip := back }
    { c with regs := s.regs, eip := back, mem := m.mem } := ⟨rfl, h.kept⟩

/-! ## On the way -/

/-- One step of local code; it stops where `Local.exec` says nothing. -/
def Machine.localStep (M : Machine F) (p : Word × Local) : Word × Local :=
  match M.code p.1 with
  | some (i, next) => (p.2.exec next i).getD p
  | none => p

theorem Machine.localStep_some {p q : Word × Local} {i : Instr} {next : Word} (hcode : M.code p.1 = some (i, next))
    (hx : p.2.exec next i = some q) : M.localStep p = q := by
  unfold localStep
  rw [hcode]
  dsimp only
  rw [hx]
  rfl

theorem Machine.localStep_entry (hM : M.Sound) (f : F) (s : Local) :
    M.localStep (M.entry f, s) = (M.entry f, s) := by
  unfold localStep
  rw [hM.entries f]

theorem Machine.localStep_none {p : Word × Local} {i : Instr} {next : Word} (hcode : M.code p.1 = some (i, next))
    (hx : p.2.exec next i = none) : M.localStep p = p := by
  unfold localStep
  rw [hcode]
  dsimp only
  rw [hx]
  rfl

/-- The processor is at a place from which local code leads to `t`. -/
def Machine.OnWay (M : Machine F) (W : Nat → Prop) (c : Cpu) (t : Word × Local) (m : Cpu) : Prop :=
  ∃ p, Leads M.localStep p t ∧ M.At W c p.1 p.2 m

theorem Machine.OnWay.inner {t : Word × Local} (h : M.OnWay W c t m) :
    privilege m.cs = 0 ∧ M.level m ≤ M.tables.esp0.toNat := by
  obtain ⟨p, -, hat⟩ := h
  have hlevel : M.level m = m.esp.toNat := if_pos hat.cs
  have hbase := hat.base
  have htop := hat.top
  rw [hlevel, hat.esp]
  exact ⟨hat.cs, by omega⟩

theorem Machine.OnWay.mono {t : Word × Local} (h : M.OnWay W c t m) (hW : ∀ a, W a → W' a) : M.OnWay W' c t m := by
  obtain ⟨p, hp, hat⟩ := h
  exact ⟨p, hp, hat.mono hW⟩

/-- The way is longer by an instruction. -/
theorem Machine.leads_instr {e' : Word} {s' : Local} {t : Word × Local} {i : Instr} {next : Word}
    (hcode : M.code e = some (i, next)) (hx : s.exec next i = some (e', s')) (h : Leads M.localStep (e', s') t) :
    Leads M.localStep (e, s) t := by
  refine .head ?_
  rw [localStep_some hcode hx]
  exact h

/-- A place is one from which local code goes on, or the end of the way. -/
theorem Machine.OnWay.cases {t : Word × Local} (h : M.OnWay W c t m) (ht : M.localStep t = t) :
    M.At W c t.1 t.2 m ∨ ∃ e s i next q, M.At W c e s m ∧ M.code e = some (i, next) ∧ s.exec next i = some q ∧
      Leads M.localStep q t := by
  obtain ⟨p, hp, hat⟩ := h
  by_cases hx : ∃ i next q, M.code p.1 = some (i, next) ∧ p.2.exec next i = some q
  · obtain ⟨i, next, q, hcode, hx⟩ := hx
    have hleads : Leads M.localStep p q := .head (by rw [Machine.localStep_some hcode hx]; exact .refl _ _)
    exact Or.inr ⟨p.1, p.2, i, next, q, hat, hcode, hx, hp.to_fixed hleads ht⟩
  · have hfix : M.localStep p = p := by
      match hcode : M.code p.1 with
      | none =>
        unfold localStep
        rw [hcode]
      | some (i, next) =>
        match hq : p.2.exec next i with
        | none => exact localStep_none hcode hq
        | some q => exact absurd ⟨i, next, q, hcode, hq⟩ hx
    obtain ⟨k, hk⟩ := hp
    rw [Function.iterate_fixed hfix] at hk
    rw [← hk]
    exact Or.inl hat

/-- It is there, or the next instruction brings it nearer. -/
theorem Machine.OnWay.next {t : Word × Local} (h : M.OnWay W c t m) (ht : M.localStep t = t)
    (hroom : M.bottom + 64 ≤ m.esp.toNat) :
    M.At W c t.1 t.2 m ∨ ∃ m', M.step m .instr = some m' ∧ M.OnWay W c t m' := by
  rcases h.cases ht with hat | ⟨e, s, i, next, q, hat, hcode, hx, hq⟩
  · exact Or.inl hat
  · rw [hat.esp] at hroom
    obtain ⟨m', hm', hat'⟩ := hat.exec (t := M.tables) hroom hx
    refine Or.inr ⟨m', ?_, q, hq, hat'⟩
    unfold Machine.step
    dsimp only
    rw [hat.eip, hcode]
    exact hm'

/-- Where a function begins, the way ends. -/
theorem Machine.OnWay.entry (hM : M.Sound) {t : Word × Local} (h : M.OnWay W c t m) (ht : M.localStep t = t) {f : F}
    (hf : m.eip = M.entry f) : M.At W c t.1 t.2 m ∧ t.1 = M.entry f := by
  rcases h.cases ht with hat | ⟨e, s, i, next, q, hat, hcode, -, -⟩
  · exact ⟨hat, hat.eip.symm.trans hf⟩
  · rw [← hat.eip, hf, hM.entries f] at hcode
    cases hcode

/-- The step of a way that ends where a function begins. -/
theorem Machine.OnWay.step_entry (hM : M.Sound) {f : F} (h : M.OnWay W c (M.entry f, s) m)
    (hroom : M.bottom + 64 ≤ m.esp.toNat) (hs : M.step m .instr = some m') : M.OnWay W c (M.entry f, s) m' := by
  rcases h.next (Machine.localStep_entry hM _ _) hroom with hat | ⟨m₁, hm₁, hway⟩
  · cases (hat.step_entry hM).symm.trans hs
  · obtain rfl := Option.some.inj (hm₁.symm.trans hs)
    exact hway

theorem Machine.OnWay.entry_goes_on (hM : M.Sound) {f : F} (h : M.OnWay W c (M.entry f, s) m)
    (hroom : M.bottom + 64 ≤ m.esp.toNat) : (∃ m', M.step m .instr = some m') ∨ ∃ f, m.eip = M.entry f := by
  rcases h.next (Machine.localStep_entry hM _ _) hroom with hat | ⟨m', hm', -⟩
  · exact Or.inr ⟨f, hat.eip⟩
  · exact Or.inl ⟨m', hm'⟩

section Iret
variable {next : Word} (hcode : M.code e = some (.iret, next))
include hcode

/-- The step of a way that ends with an `iret`: it takes the way further, or back to where the code was entered. -/
theorem Machine.OnWay.step_iret (h : M.OnWay W c (e, s) m) (hstack : s.stack = frame c back)
    (hroom : M.bottom + 64 ≤ m.esp.toNat) (hs : M.step m .instr = some m') :
    M.OnWay W c (e, s) m' ∨ M.Resumes W { c with regs := s.regs, eip := back } m' := by
  rcases h.next (Machine.localStep_none hcode rfl) hroom with hat | ⟨m₁, hm₁, hway⟩
  · rw [hat.step_eq hcode] at hs
    obtain rfl := Option.some.inj ((hat.iret hstack M.tables next).symm.trans hs)
    exact Or.inr hat.resumed
  · obtain rfl := Option.some.inj (hm₁.symm.trans hs)
    exact Or.inl hway

theorem Machine.OnWay.iret_goes_on (h : M.OnWay W c (e, s) m) (hstack : s.stack = frame c back)
    (hroom : M.bottom + 64 ≤ m.esp.toNat) : ∃ m', M.step m .instr = some m' := by
  rcases h.next (Machine.localStep_none hcode rfl) hroom with hat | ⟨m', hm', -⟩
  · refine ⟨{ c with regs := s.regs, eip := back, mem := m.mem }, ?_⟩
    rw [hat.step_eq hcode]
    exact hat.iret hstack M.tables next
  · exact ⟨m', hm'⟩

/-- No function is called on it. -/
theorem Machine.OnWay.iret_ne_entry (hM : M.Sound) (h : M.OnWay W c (e, s) m) (f : F) : m.eip ≠ M.entry f := by
  intro hf
  obtain ⟨-, he⟩ : _ ∧ e = M.entry f := h.entry hM (Machine.localStep_none hcode rfl) hf
  rw [he, hM.entries f] at hcode
  cases hcode

end Iret

/-! ## Interrupts within interrupts -/

/-- Where some of the functions `quiet` may write. -/
def Machine.Shadow (M : Machine F) (quiet : F → Prop) (a : Nat) : Prop := ∃ f, quiet f ∧ M.writable f a

/-- What is asked of a run: only `hardware` interrupts, functions that keep the convention, no overflow of the inner
stack, and programs of the outer level that do not read `W` or the inner stack. -/
def Machine.Allowed (M : Machine F) (hardware : UInt8 → Prop) (W : Nat → Prop) (c : Cpu) : Event F → Prop
  | .instr =>
    (privilege c.cs = 0 → M.bottom + 64 ≤ c.esp.toNat) ∧
      (privilege c.cs ≠ 0 → ∀ p, M.code c.eip = some p → ∀ a ∈ reads c p.1, ∀ j < 4,
        ¬ W (a + j) ∧ (a + j < M.bottom ∨ M.tables.esp0.toNat ≤ a + j))
  | .interrupt vector => hardware vector ∧ (privilege c.cs = 0 → M.bottom + 64 ≤ c.esp.toNat)
  | .leave f c' => M.Returns f c c'

section Nested
variable {hardware : UInt8 → Prop} {quiet : F → Prop} {Inside : Cpu → Cpu → Prop}

/-- `m` is in a handler that interrupts `c`, or in one that interrupts such a handler. -/
inductive Over (Inside : Cpu → Cpu → Prop) : Cpu → Cpu → Prop
  | here {c m : Cpu} (h : Inside c m) : Over Inside c m
  | above {c d m : Cpu} (h : Inside c d) (ho : Over Inside d m) : Over Inside c m

/-- What handlers have to do: they begin at their gates, call the functions `quiet` only, do not mind being interrupted,
never get stuck, and end where the interrupted program goes on. -/
structure Handlers (M : Machine F) (hardware : UInt8 → Prop) (quiet : F → Prop) (Inside : Cpu → Cpu → Prop) : Prop where
  enters : ∀ c v, hardware v → M.bottom + 64 ≤ M.level c → M.level c ≤ M.tables.esp0.toNat →
    Inside c (deliver M.tables v c)
  inner : ∀ c d, Inside c d → privilege d.cs = 0 ∧ M.level d ≤ M.tables.esp0.toNat
  calls : ∀ c d f, Inside c d → d.eip = M.entry f → quiet f
  undisturbed : ∀ c d m, Inside c d → M.Resumes (M.Shadow quiet) d m → Inside c m
  steps : ∀ c d e m, Inside c d → (∀ v, e ≠ .interrupt v) → M.Allowed hardware (M.Shadow quiet) d e →
    M.step d e = some m → Inside c m ∨ M.Resumes (M.Shadow quiet) c m
  goes_on : ∀ c d, Inside c d → M.bottom + 64 ≤ d.esp.toNat →
    (∃ m, M.step d .instr = some m) ∨ ∃ f, d.eip = M.entry f

theorem Machine.At.undisturbed (hM : M.Sound) (h : M.At W c e s d) (hr : M.Resumes (M.Shadow quiet) d m)
    (hW : ∀ a, M.Shadow quiet a → W a) : M.At W c e s m := by
  obtain ⟨hsame, hkept⟩ := hr
  have hbase := h.base
  have hlow := h.low
  have htop := h.top
  have hlevel : M.level d = s.esp.toNat := by
    rw [← h.esp]
    exact if_pos h.cs
  rw [hlevel] at hkept
  generalize m.mem = mem at hsame hkept
  subst hsame
  refine { h with holds := h.holds.congr fun b hb hlt => ?_, kept := h.kept.trans (hkept.mono hW (by omega)) }
  refine hkept b ?_ (Or.inr hb)
  rintro ⟨f, -, hf⟩
  exact hM.apart f b (by omega) (by omega) hf

theorem Machine.OnWay.undisturbed (hM : M.Sound) {t : Word × Local} (h : M.OnWay W c t d)
    (hr : M.Resumes (M.Shadow quiet) d m) (hW : ∀ a, M.Shadow quiet a → W a) : M.OnWay W c t m := by
  obtain ⟨p, hp, hat⟩ := h
  exact ⟨p, hp, hat.undisturbed hM hr hW⟩

theorem step_interrupt {v : UInt8} (hs : M.step c (.interrupt v) = some m) :
    interruptFlag c.eflags = true ∧ m = deliver M.tables v c := by
  unfold Machine.step at hs
  dsimp only at hs
  split_ifs at hs with hflag
  exact ⟨hflag, (Option.some.inj hs).symm⟩

theorem step_leave {f : F} (hs : M.step c (.leave f d) = some m) :
    (privilege c.cs = 0 ∧ c.eip = M.entry f) ∧ m = d := by
  unfold Machine.step at hs
  dsimp only at hs
  split_ifs at hs with heip
  exact ⟨heip, (Option.some.inj hs).symm⟩

variable (h : Handlers M hardware quiet Inside)
include h

theorem Handlers.over_inner (ho : Over Inside c d) : privilege d.cs = 0 ∧ M.level d ≤ M.tables.esp0.toNat := by
  induction ho with
  | here hin => exact h.inner _ _ hin
  | above _ _ ih => exact ih

theorem Handlers.over_calls (ho : Over Inside c d) {f : F} (hf : d.eip = M.entry f) : quiet f := by
  induction ho with
  | here hin => exact h.calls _ _ f hin hf
  | above _ _ ih => exact ih hf

theorem Handlers.over_goes_on (ho : Over Inside c d) (hroom : M.bottom + 64 ≤ d.esp.toNat) :
    (∃ m, M.step d .instr = some m) ∨ ∃ f, d.eip = M.entry f := by
  induction ho with
  | here hin => exact h.goes_on _ _ hin hroom
  | above _ _ ih => exact ih hroom

/-- **Nested handlers.** A step within the handlers that interrupt `c` stays within them, or `c` goes on. -/
theorem Handlers.over_step {e : Event F} (ho : Over Inside c d) (hok : M.Allowed hardware (M.Shadow quiet) d e)
    (hs : M.step d e = some m) : Over Inside c m ∨ M.Resumes (M.Shadow quiet) c m := by
  induction ho with
  | @here c d hin =>
    by_cases hint : ∃ v, e = .interrupt v
    · obtain ⟨v, rfl⟩ := hint
      obtain ⟨-, rfl⟩ := step_interrupt hs
      obtain ⟨hp, hle⟩ := h.inner c d hin
      have hroom : M.bottom + 64 ≤ M.level d := by
        unfold Machine.level
        rw [if_pos hp]
        exact hok.2 hp
      exact Or.inl (.above hin (.here (h.enters d v hok.1 hroom hle)))
    · exact (h.steps c d e m hin (fun v hv => hint ⟨v, hv⟩) hok hs).imp_left .here
  | @above c d d' hin _ ih =>
    rcases ih hok hs with ho' | hr
    · exact Or.inl (.above hin ho')
    · exact Or.inl (.here (h.undisturbed c d m hin hr))

/-- A state of the program `S`, or one of the handlers that interrupt it there. -/
def Interrupted (Inside : Cpu → Cpu → Prop) (S : Cpu → Prop) (m : Cpu) : Prop := S m ∨ ∃ d, S d ∧ Over Inside d m

/-- **Interrupted programs.** Who does not mind that a handler has run sees its own steps only: every other step is one
of the handlers. -/
theorem Handlers.interrupted_step (hM : M.Sound) {S : Cpu → Prop}
    (hlevel : ∀ d, S d → M.level d ≤ M.tables.esp0.toNat)
    (hundisturbed : ∀ d m, S d → M.Resumes (M.Shadow quiet) d m → S m) {e : Event F} (hd : Interrupted Inside S d)
    (hok : M.Allowed hardware (M.Shadow quiet) d e) (hs : M.step d e = some m) :
    (S d ∧ ∀ v, e ≠ .interrupt v) ∨ Interrupted Inside S m ∧ ∀ f c', e = .leave f c' → quiet f := by
  rcases hd with hS | ⟨d₀, hS, ho⟩
  · by_cases hint : ∃ v, e = .interrupt v
    · obtain ⟨v, rfl⟩ := hint
      obtain ⟨-, rfl⟩ := step_interrupt hs
      have hroom : M.bottom + 64 ≤ M.level d := by
        unfold Machine.level
        split_ifs with hp
        · exact hok.2 hp
        · exact hM.room
      exact Or.inr ⟨Or.inr ⟨d, hS, .here (h.enters d v hok.1 hroom (hlevel d hS))⟩, by rintro f c' ⟨⟩⟩
    · exact Or.inl ⟨hS, fun v hv => hint ⟨v, hv⟩⟩
  · refine Or.inr ⟨?_, ?_⟩
    · rcases h.over_step ho hok hs with ho' | hr
      · exact Or.inr ⟨d₀, hS, ho'⟩
      · exact Or.inl (hundisturbed d₀ m hS hr)
    · rintro f c' rfl
      exact h.over_calls ho (step_leave hs).1.2

end Nested

end Trap
