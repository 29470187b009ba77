import BasicOs.CommandLine
import BasicOs.Loader
import BasicOs.Lookup

/-!
# Which commands start a program

STEP 1 to STEP 3 of `sys_execute` as one decision: the command is split, its first word is looked up, the file's
first four bytes are checked and a pid is taken. Each of the last three can end the call with `-1`.

* `takePid` : the loop of STEP 3, with the test for a full table inside it;
* `Rejected k word` : what makes the call return `-1`;
* `execute_admission` : it does so in no other case, with nothing changed, and otherwise the smallest unused pid is
  taken.
-/

namespace BasicOs
open Bytes FileSystem

/-! ## The pid -/

/-- The loop of STEP 3 from `pid` on: the pid it breaks off at and the array then, `none` where it returns `-1`. -/
def takePid (pidArray : Int → Int) : (left : Nat) → (pid : Int) → Option (Int × (Int → Int))
  | 0, pid => some (pid, pidArray)
  | left + 1, pid =>
    if pidArray pid = unused then some (pid, Function.update pidArray pid used)
    else if pid = maxNumPids - 1 then none
    else takePid pidArray left (pid + 1)

/-- The smallest of the six pids that is unused. -/
def LeastUnused (pidArray : Int → Int) (pid : Int) : Prop :=
  (0 ≤ pid ∧ pid < maxNumPids) ∧ pidArray pid = unused ∧ ∀ q, 0 ≤ q → q < pid → pidArray q ≠ unused

/-- The loop takes the first unused pid at or after `pid`, and returns `-1` if there is none. -/
theorem takePid_spec (pidArray : Int → Int) : ∀ (left : Nat) (pid : Int), left + pid = maxNumPids → 0 < left →
    (∃ p, takePid pidArray left pid = some (p, Function.update pidArray p used) ∧ (pid ≤ p ∧ p < maxNumPids) ∧
      pidArray p = unused ∧ ∀ q, pid ≤ q → q < p → pidArray q ≠ unused) ∨
    takePid pidArray left pid = none ∧ ∀ q, pid ≤ q → q < maxNumPids → pidArray q ≠ unused
  | left + 1, pid, hleft, _ => by
    rw [takePid]
    by_cases hfree : pidArray pid = unused
    · rw [if_pos hfree]
      exact Or.inl ⟨pid, rfl, ⟨le_refl pid, by omega⟩, hfree, fun q h1 h2 => absurd h1 (by omega)⟩
    · rw [if_neg hfree]
      by_cases hlast : pid = maxNumPids - 1
      · rw [if_pos hlast]
        refine Or.inr ⟨rfl, fun q h1 h2 => ?_⟩
        obtain rfl : q = pid := by omega
        exact hfree
      · rw [if_neg hlast]
        rcases takePid_spec pidArray left (pid + 1) (by omega) (by omega) with
          ⟨p, hp, hrange, hunused, hleast⟩ | ⟨hp, hnone⟩
        · refine Or.inl ⟨p, hp, by omega, hunused, fun q h1 h2 => ?_⟩
          by_cases hq : q = pid
          · exact hq ▸ hfree
          · exact hleast q (by omega) h2
        · refine Or.inr ⟨hp, fun q h1 h2 => ?_⟩
          by_cases hq : q = pid
          · exact hq ▸ hfree
          · exact hnone q (by omega) h2

/-- The loop searches the pids that are left, and stores. -/
theorem takePid_eq_find (pidArray : Int → Int) : ∀ (left : Nat) (pid : Int), left + pid = maxNumPids → 0 < left →
    takePid pidArray left pid =
      (((List.range left).map fun i : Nat => pid + (i : Int)).find? fun p => pidArray p = unused).map
        fun p => (p, Function.update pidArray p used)
  | left + 1, pid, hleft, _ => by
    have hshift : (fun i : Nat => pid + ((i + 1 : Nat) : Int)) = fun i : Nat => pid + 1 + (i : Int) := by
      funext i
      omega
    rw [takePid, List.range_succ_eq_map, List.map_cons, List.map_map, List.find?_cons, Nat.cast_zero, add_zero]
    by_cases hfree : pidArray pid = unused
    · rw [if_pos hfree, decide_eq_true hfree]
      rfl
    · rw [if_neg hfree, decide_eq_false hfree]
      by_cases hlast : pid = maxNumPids - 1
      · rw [if_pos hlast, show left = 0 by omega]
        rfl
      · rw [if_neg hlast, takePid_eq_find pidArray left (pid + 1) (by omega) (by omega), ← hshift]
        rfl

/-- The loop is the search of `freePid`, with the store. -/
theorem takePid_eq (pidArray : Int → Int) : takePid pidArray maxNumPids 0 =
    (freePid pidArray).map fun pid => (pid, Function.update pidArray pid used) :=
  takePid_eq_find pidArray maxNumPids 0 rfl (by decide)

theorem takePid_cases (pidArray : Int → Int) :
    (∃ pid, LeastUnused pidArray pid ∧ freePid pidArray = some pid ∧
      takePid pidArray maxNumPids 0 = some (pid, Function.update pidArray pid used)) ∨
    freePid pidArray = none ∧ ∀ q : Int, 0 ≤ q → q < maxNumPids → pidArray q ≠ unused := by
  have hmap := takePid_eq pidArray
  rcases takePid_spec pidArray maxNumPids 0 rfl (by decide) with ⟨pid, hpid, hrange, hunused, hleast⟩ | ⟨hpid, hnone⟩
  · rw [hpid] at hmap
    obtain ⟨p, hp, heq⟩ := Option.map_eq_some_iff.mp hmap.symm
    obtain rfl : p = pid := congrArg Prod.fst heq
    exact Or.inl ⟨p, ⟨hrange, hunused, hleast⟩, hp, hpid⟩
  · rw [hpid] at hmap
    exact Or.inr ⟨Option.map_eq_none_iff.mp hmap.symm, hnone⟩

/-! ## The decision -/

/-- A directory entry has the name: a slot of the directory, with a name that is not empty. -/
def FileSystem.Named (fs : FileSystem) (name : List UInt8) : Prop :=
  fs.theBootBlock ≠ 0 ∧ name ≠ [] ∧ ∃ i < numDirentries, effectiveName (fs.direntry i) = name

/-- Every entry has an inode of the image, with a file that is long enough for a program header. -/
def FileSystem.FilesReady (fs : FileSystem) : Prop :=
  ∀ i < numDirentries, effectiveName (fs.direntry i) ≠ [] →
    (fs.direntry i).inodeNum < fs.inodeCount ∧ 28 ≤ fs.inodeLength (fs.direntry i).inodeNum

/-- The call cannot start a program: no entry has the name, or the file of the entry that a lookup finds does not
start with the ELF magic, or no pid is unused. -/
def Rejected (k : Kernel) (word : List UInt8) : Prop :=
  ¬ k.fs.Named word ∨
    (∃ d, k.fs.lookup word = some d ∧ k.fs.fileBytes d.inodeNum 4 ≠ [0x7F, 69, 76, 70]) ∨
    ∀ pid : Int, 0 ≤ pid → pid < maxNumPids → k.pidArray pid ≠ unused

theorem lookup_eq_none_iff_named (fs : FileSystem) {name : List UInt8} (hname : cstr name = name) :
    fs.lookup name = none ↔ ¬ fs.Named name := by
  unfold FileSystem.Named
  by_cases hboot : fs.theBootBlock = 0
  · rw [lookup, if_pos (Or.inl hboot)]
    simp [hboot]
  · by_cases hne : name = []
    · rw [lookup, if_pos (Or.inr (by rw [hname, hne]))]
      simp [hne]
    · rw [lookup_eq_none_iff_slots hboot (by rwa [hname]), hname]
      simp [hboot, hne]

/-- The entry that a lookup finds is one of the directory. -/
theorem FileSystem.FilesReady.lookup {fs : FileSystem} (h : fs.FilesReady) {name : List UInt8} {d : Dentry}
    (hd : fs.lookup name = some d) :
    fs.theBootBlock ≠ 0 ∧ d.inodeNum < fs.inodeCount ∧ 28 ≤ fs.inodeLength d.inodeNum := by
  obtain ⟨hmem, hname, hne⟩ := lookup_eq_some hd
  obtain ⟨i, hi, rfl⟩ := List.mem_map.mp hmem
  have hboot : fs.theBootBlock ≠ 0 := by
    intro h0
    rw [FileSystem.lookup, if_pos (Or.inl h0)] at hd
    cases hd
  obtain ⟨hinode, hlen⟩ := h i (List.mem_range.mp hi) (by rwa [hname])
  exact ⟨hboot, hinode, hlen⟩

theorem cstr_firstWord {command : Nat → UInt8} {n : Nat} (h : IsString command n) :
    cstr (firstWord (bytesAt command n)) = firstWord (bytesAt command n) := by
  have hparts := Parse.parts_of_isString h
  exact cstr_eq_self fun h0 => (hparts.word_ne 0 h0).2 rfl

/-- Whatever the load runs into, the pid is marked before it. -/
theorem loadProgram_pidArray (k : Kernel) (pid : Int) (inode : Nat) :
    (loadProgram k pid inode).pidArray = Function.update k.pidArray pid used := rfl

section Execute
variable {k : Kernel} {command : Nat → UInt8} {n : Nat} {r : Regs} {stale : Nat → UInt8}

theorem sysExecute_of_not_found (h : IsString command n) (hn : n ≤ 126) (hline : command 0 ≠ chNewline)
    (hfind : findProgram k.fs (firstWord (bytesAt command n)) stale = none) :
    sysExecute k (some command) r stale = .ret k (-1) := by
  unfold sysExecute
  simp only [parseCommand_of_isString h hn, hfind]
  rw [if_neg hline]

theorem sysExecute_of_full (h : IsString command n) (hn : n ≤ 126) (hline : command 0 ≠ chNewline) {p : Nat × Nat}
    (hfind : findProgram k.fs (firstWord (bytesAt command n)) stale = some p) (hfull : freePid k.pidArray = none) :
    sysExecute k (some command) r stale = .ret k (-1) := by
  unfold sysExecute
  simp only [parseCommand_of_isString h hn, hfind, hfull]
  rw [if_neg hline]

theorem sysExecute_of_free (h : IsString command n) (hn : n ≤ 126) (hline : command 0 ≠ chNewline) {inode entry : Nat}
    (hfind : findProgram k.fs (firstWord (bytesAt command n)) stale = some (inode, entry)) {pid : Int}
    (hpid : freePid k.pidArray = some pid) :
    sysExecute k (some command) r stale =
      if usrBuf + (programBytes k.fs inode).length > loadEnd k then .fault (loadProgram k pid inode)
      else .user (launch k pid inode entry (afterWord (bytesAt command n)) r) := by
  unfold sysExecute
  simp only [parseCommand_of_isString h hn, hfind, hpid]
  rw [if_neg hline]

/-- A call that is rejected returns `-1` and changes nothing. -/
theorem sysExecute_of_rejected (h : IsString command n) (hn : n ≤ 126) (hline : command 0 ≠ chNewline)
    (hfiles : k.fs.FilesReady) (hrej : Rejected k (firstWord (bytesAt command n))) :
    sysExecute k (some command) r stale = .ret k (-1) := by
  cases hd : k.fs.lookup (firstWord (bytesAt command n)) with
  | none =>
    apply sysExecute_of_not_found h hn hline
    rw [findProgram, readDentryByName_eq, hd]
  | some d =>
    obtain ⟨hboot, hinode, hlen⟩ := hfiles.lookup hd
    have hfind := findProgram_of_lookup hboot hd hinode hlen stale
    split_ifs at hfind with helf
    · refine sysExecute_of_full h hn hline hfind ?_
      rcases hrej with hnamed | ⟨d', hd', hnot⟩ | hfull
      · rw [(lookup_eq_none_iff_named _ (cstr_firstWord h)).mpr hnamed] at hd
        cases hd
      · rw [hd, Option.some_inj] at hd'
        exact absurd (hd' ▸ helf) hnot
      · rcases takePid_cases k.pidArray with ⟨pid, ⟨⟨h0, h5⟩, hunused, -⟩, -⟩ | ⟨hnone, -⟩
        · exact absurd hunused (hfull pid h0 h5)
        · exact hnone
    · exact sysExecute_of_not_found h hn hline hfind

variable (r stale) in
/-- Any other call has found a program and takes a pid. -/
theorem sysExecute_of_not_rejected (h : IsString command n) (hn : n ≤ 126) (hline : command 0 ≠ chNewline)
    (hfiles : k.fs.FilesReady) (hrej : ¬ Rejected k (firstWord (bytesAt command n))) :
    ∃ d pid, k.fs.lookup (firstWord (bytesAt command n)) = some d ∧ LeastUnused k.pidArray pid ∧
      takePid k.pidArray maxNumPids 0 = some (pid, Function.update k.pidArray pid used) ∧
      sysExecute k (some command) r stale =
        if usrBuf + (programBytes k.fs d.inodeNum).length > loadEnd k then .fault (loadProgram k pid d.inodeNum)
        else .user (launch k pid d.inodeNum (fileWord k.fs d.inodeNum 24) (afterWord (bytesAt command n)) r) := by
  obtain ⟨hnamed, helf, hfree⟩ := by
    unfold Rejected at hrej
    simpa only [not_or, not_not] using hrej
  obtain ⟨d, hd⟩ : ∃ d, k.fs.lookup (firstWord (bytesAt command n)) = some d := by
    apply Option.ne_none_iff_exists'.mp
    rw [Ne, lookup_eq_none_iff_named _ (cstr_firstWord h), not_not]
    exact hnamed
  obtain ⟨hboot, hinode, hlen⟩ := hfiles.lookup hd
  have hmagic : k.fs.fileBytes d.inodeNum 4 = [0x7F, 69, 76, 70] := by
    by_contra hne
    exact helf ⟨d, hd, hne⟩
  have hfind := findProgram_eq hboot hd hinode hlen hmagic stale
  rcases takePid_cases k.pidArray with ⟨pid, hleast, hpid, htake⟩ | ⟨-, hnone⟩
  · exact ⟨d, pid, hd, hleast, htake, sysExecute_of_free h hn hline hfind hpid⟩
  · exact absurd hnone hfree

end Execute

/-- **Admission.** A command of at most 126 bytes that is not an empty line is answered with `-1` exactly if it is
rejected; a call that returns does so with `-1` and with nothing changed. Any other call marks the smallest unused
pid, and no other: it enters the program, or it faults on one that runs past the memory mapped at 128 MB, with the
pid marked. -/
theorem execute_admission {k : Kernel} {command : Nat → UInt8} {n : Nat} (h : IsString command n) (hn : n ≤ 126)
    (hline : command 0 ≠ chNewline) (hfiles : k.fs.FilesReady) (r : Regs) (stale : Nat → UInt8) :
    ((∃ k', sysExecute k (some command) r stale = .ret k' (-1)) ↔ Rejected k (firstWord (bytesAt command n))) ∧
    (∀ k' v, sysExecute k (some command) r stale = .ret k' v → v = -1 ∧ k' = k) ∧
    (¬ Rejected k (firstWord (bytesAt command n)) → ∃ pid, LeastUnused k.pidArray pid ∧
      takePid k.pidArray maxNumPids 0 = some (pid, Function.update k.pidArray pid used) ∧
      ∃ k', k'.pidArray = Function.update k.pidArray pid used ∧
        (sysExecute k (some command) r stale = .user k' ∨
          sysExecute k (some command) r stale = .fault k' ∧
            ∃ d, k.fs.lookup (firstWord (bytesAt command n)) = some d ∧
              loadEnd k < usrBuf + (programBytes k.fs d.inodeNum).length)) := by
  by_cases hrej : Rejected k (firstWord (bytesAt command n))
  · have hcall : sysExecute k (some command) r stale = .ret k (-1) := sysExecute_of_rejected h hn hline hfiles hrej
    refine ⟨⟨fun _ => hrej, fun _ => ⟨k, hcall⟩⟩, ?_, fun hnot => absurd hrej hnot⟩
    intro k' v hret
    rw [hcall, ExecuteResult.ret.injEq] at hret
    exact ⟨hret.2.symm, hret.1.symm⟩
  · obtain ⟨d, pid, hd, hleast, htake, hcall⟩ := sysExecute_of_not_rejected r stale h hn hline hfiles hrej
    have hret : ∀ k' v, sysExecute k (some command) r stale ≠ .ret k' v := by
      intro k' v hret
      rw [hcall] at hret
      split_ifs at hret
    refine ⟨⟨fun ⟨k', hk'⟩ => absurd hk' (hret k' _), fun hr => absurd hr hrej⟩,
      fun k' v hk' => absurd hk' (hret k' v), fun _ => ⟨pid, hleast, htake, ?_⟩⟩
    rw [hcall]
    split_ifs with hlong
    · exact ⟨_, loadProgram_pidArray k pid d.inodeNum, Or.inr ⟨rfl, d, hd, hlong⟩⟩
    · exact ⟨_, launch_pidArray _ _ _ _ _ _, Or.inl rfl⟩

/-- The small image, with pid 5 as the only one that is unused. -/
def lastPidFree : Kernel :=
  { Kernel.atLoad shellImage with pidArray := fun pid => if pid = 5 then unused else used }

/-- `shell` with one pid left: it is taken. -/
theorem execute_admission_last : IsString shellCommand 5 ∧ shellImage.FilesReady ∧
    ¬ Rejected lastPidFree (firstWord (bytesAt shellCommand 5)) ∧
    takePid lastPidFree.pidArray maxNumPids 0 = some (5, Function.update lastPidFree.pidArray 5 used) ∧
    ∀ k' v, sysExecute lastPidFree (some shellCommand) ⟨0, 0⟩ (fun _ => 0) ≠ .ret k' v := by
  have hstring : IsString shellCommand 5 := isString_ofList (by decide)
  have hfiles : shellImage.FilesReady := by
    unfold FileSystem.FilesReady
    decide +kernel
  have hword : firstWord (bytesAt shellCommand 5) = shellName := by decide +kernel
  have hlookup : shellImage.lookup shellName = some (shellImage.direntry 0) := by decide +kernel
  have hnot : ¬ Rejected lastPidFree (firstWord (bytesAt shellCommand 5)) := by
    rw [hword]
    rintro (hnamed | ⟨d, hd, hne⟩ | hfull)
    · exact hnamed ⟨by decide, by decide, 0, by decide, by decide +kernel⟩
    · obtain rfl : shellImage.direntry 0 = d := Option.some.inj (hlookup.symm.trans hd)
      exact hne (by decide +kernel)
    · exact hfull 5 (by decide) (by decide) rfl
  obtain ⟨hiff, hret, htaken⟩ := execute_admission (k := lastPidFree) hstring (by decide) (by decide) hfiles ⟨0, 0⟩
    (fun _ => 0)
  obtain ⟨pid, ⟨-, hunused, -⟩, htake, -⟩ := htaken hnot
  have hpid : pid = 5 := by
    by_contra hne
    have : lastPidFree.pidArray pid = used := if_neg hne
    rw [this] at hunused
    cases hunused
  refine ⟨hstring, hfiles, hnot, hpid ▸ htake, ?_⟩
  intro k' v hk'
  obtain ⟨rfl, -⟩ := hret k' v hk'
  exact hnot (hiff.mp ⟨k', hk'⟩)

end BasicOs
