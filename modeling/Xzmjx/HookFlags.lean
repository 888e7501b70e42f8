import Mathlib.Data.BitVec
import Mathlib.Data.List.Induction
import Mathlib.Logic.Function.Basic

/-!
# The non-blocking flag behind the hooks

The library puts every socket it tracks into non-blocking mode and hides this from
the user: `FdCtx` remembers what the user asked for (`userNonblock`) and whether the
library imposed the mode (`sysNonblock`), and the hooked `fcntl` and `ioctl` translate
between the two. Status flags are the 32-bit `int` of the system calls. `F_SETFL`
changes the flags in a mask and no others; the mask is a parameter, of which the
results need that it has `O_NONBLOCK`. The kernel may also refuse `F_SETFL` and
`FIONBIO` on an open descriptor and then changes nothing (`O_DIRECT` on a socket is
`EINVAL`, a security module may forbid anything): every call says whether it does.
-/
namespace Xzmjx.HookModel

/-- `O_NONBLOCK`. -/
def oNonblock : BitVec 32 := 2048#32

/-- The `-1` of a failed system call. -/
def failed : BitVec 32 := BitVec.allOnes 32

/-- What the kernel knows of an open descriptor. -/
structure File where
  isSocket : Bool
  flags : BitVec 32
  deriving DecidableEq, Repr

structure FdCtx where
  isInit : Bool := false
  isSocket : Bool := false
  sysNonblock : Bool := false
  userNonblock : Bool := false
  isClosed : Bool := false
  deriving DecidableEq, Repr

/-- The descriptors of the process and the contexts of `FdManager`. -/
structure World where
  files : ℕ → Option File
  container : ℕ → Option FdCtx

/-! ### The original system calls -/

/-- The flags after `F_SETFL`. -/
def setFlags (settable flags arg : BitVec 32) : BitVec 32 :=
  (arg &&& settable) ||| (flags &&& ~~~settable)

/-- The flags after `FIONBIO`. -/
def setNonblock (flags v : BitVec 32) : BitVec 32 :=
  if v ≠ 0 then flags ||| oNonblock else flags &&& ~~~oNonblock

namespace World

/-- `fcntl_f(fd, F_GETFL)`. -/
def fcntlGetF (w : World) (fd : ℕ) : BitVec 32 :=
  match w.files fd with
  | some f => f.flags
  | none => failed

def setFile (w : World) (fd : ℕ) (f : File) : World :=
  { w with files := Function.update w.files fd (some f) }

/-- `fcntl_f(fd, F_SETFL, arg)`. -/
def fcntlSetF (settable : BitVec 32) (refused : Bool) (w : World) (fd : ℕ) (arg : BitVec 32) :
    BitVec 32 × World :=
  match w.files fd with
  | some f =>
      if refused then (failed, w)
      else (0, w.setFile fd { f with flags := setFlags settable f.flags arg })
  | none => (failed, w)

/-- `ioctl_f(d, FIONBIO, &v)`. -/
def ioctlF (refused : Bool) (w : World) (d : ℕ) (v : BitVec 32) : BitVec 32 × World :=
  match w.files d with
  | some f =>
      if refused then (failed, w)
      else (0, w.setFile d { f with flags := setNonblock f.flags v })
  | none => (failed, w)

/-! ### Contexts -/

/-- `FdCtx::init` of a new context; it does not look at the result of its `F_SETFL`. -/
def init (settable : BitVec 32) (refused : Bool) (w : World) (fd : ℕ) : FdCtx × World :=
  match w.files fd with
  | none => ({}, w)
  | some f =>
      if f.isSocket then
        let flags := w.fcntlGetF fd
        if flags &&& oNonblock = 0 then
          ({ isInit := true, isSocket := true, sysNonblock := true },
            (w.fcntlSetF settable refused fd (flags ||| oNonblock)).2)
        else ({ isInit := true, isSocket := true }, w)
      else ({ isInit := true }, w)

def setCtx (w : World) (fd : ℕ) (ctx : FdCtx) : World :=
  { w with container := Function.update w.container fd (some ctx) }

/-- `FdManager::get(fd, true)`. -/
def track (settable : BitVec 32) (refused : Bool) (w : World) (fd : ℕ) : World :=
  match w.container fd with
  | some _ => w
  | none =>
      let (ctx, w) := w.init settable refused fd
      w.setCtx fd ctx

/-- The context of a descriptor that the hooks of `fcntl` and `ioctl` do not pass over. -/
def hooked (w : World) (fd : ℕ) : Option FdCtx :=
  (w.container fd).filter fun ctx => !ctx.isClosed && ctx.isSocket

/-! ### The hooks -/

/-- `fcntl(fd, F_SETFL, arg)`. -/
def fcntlSetfl (settable : BitVec 32) (refused : Bool) (w : World) (fd : ℕ) (arg : BitVec 32) :
    BitVec 32 × World :=
  match w.hooked fd with
  | none => w.fcntlSetF settable refused fd arg
  | some ctx =>
      let w := w.setCtx fd { ctx with userNonblock := arg &&& oNonblock ≠ 0 }
      w.fcntlSetF settable refused fd
        (if ctx.sysNonblock then arg ||| oNonblock else arg &&& ~~~oNonblock)

/-- `fcntl(fd, F_GETFL)`. -/
def fcntlGetfl (w : World) (fd : ℕ) : BitVec 32 :=
  match w.hooked fd with
  | none => w.fcntlGetF fd
  | some ctx =>
      if ctx.userNonblock then w.fcntlGetF fd ||| oNonblock
      else w.fcntlGetF fd &&& ~~~oNonblock

/-- `ioctl(d, FIONBIO, &v)`. -/
def ioctlFionbio (refused : Bool) (w : World) (d : ℕ) (v : BitVec 32) : BitVec 32 × World :=
  match w.hooked d with
  | none => w.ioctlF refused d v
  | some ctx => (w.setCtx d { ctx with userNonblock := v ≠ 0 }).ioctlF refused d v

end World

/-- Calls, on any descriptor, with the kernel's answer: whether it refuses the system call
that is made for them. -/
inductive Call
  | track (fd : ℕ) (refused : Bool)
  | setfl (fd : ℕ) (arg : BitVec 32) (refused : Bool)
  | getfl (fd : ℕ)
  | fionbio (d : ℕ) (v : BitVec 32) (refused : Bool)
  deriving DecidableEq, Repr

def exec (settable : BitVec 32) (w : World) : Call → World
  | .track fd refused => w.track settable refused fd
  | .setfl fd arg refused => (w.fcntlSetfl settable refused fd arg).2
  | .getfl _ => w
  | .fionbio d v refused => (w.ioctlFionbio refused d v).2

def after (settable : BitVec 32) (w : World) (calls : List Call) : World :=
  calls.foldl (exec settable) w

/-! ### What the user is to see -/

/-- What a call asks of the flags of the descriptor. One that the kernel refuses has asked
for its `O_NONBLOCK`, and has set no other flag. -/
def Call.request (settable : BitVec 32) (fd : ℕ) (flags : BitVec 32) : Call → BitVec 32
  | .setfl fd' arg refused =>
      if fd' = fd then setFlags (if refused then oNonblock else settable) flags arg else flags
  | .fionbio fd' v _ => if fd' = fd then setNonblock flags v else flags
  | .track _ _ | .getfl _ => flags

/-- What a call that the kernel carries out makes of the flags of the descriptor. -/
def Call.grant (settable : BitVec 32) (fd : ℕ) (flags : BitVec 32) (call : Call) : BitVec 32 :=
  match call with
  | .setfl _ _ true | .fionbio _ _ true => flags
  | call => call.request settable fd flags

/-- The flags of a descriptor that had `flags` at its creation: `O_NONBLOCK` as the latest
request asked for it, the others as last set. -/
def asked (settable : BitVec 32) (fd : ℕ) (flags : BitVec 32) (calls : List Call) : BitVec 32 :=
  calls.foldl (Call.request settable fd) flags

/-- The flags of a descriptor that had `flags` at its creation and that nobody but the user
has changed since. -/
def granted (settable : BitVec 32) (fd : ℕ) (flags : BitVec 32) (calls : List Call) :
    BitVec 32 :=
  calls.foldl (Call.grant settable fd) flags

/-- The descriptor is in non-blocking mode, and `F_GETFL` reports the flags. -/
structure Virtualised (w : World) (fd : ℕ) (flags : BitVec 32) : Prop where
  nonblocking : ∃ f, w.files fd = some f ∧ f.flags &&& oNonblock ≠ 0
  reported : w.fcntlGetfl fd = flags

/-! ### Bits -/

theorem getLsbD_oNonblock (i : ℕ) : oNonblock.getLsbD i = decide (i = 11) := by
  have htwo : oNonblock = BitVec.twoPow 32 11 := rfl
  rw [htwo, BitVec.getLsbD_twoPow]
  simp [eq_comm]

/-- The C test `x & O_NONBLOCK`. -/
theorem and_oNonblock_ne_zero {x : BitVec 32} : x &&& oNonblock ≠ 0 ↔ x.getLsbD 11 = true := by
  constructor
  · intro hne
    by_contra hbit
    refine hne (BitVec.eq_of_getLsbD_eq fun i _ => ?_)
    rw [BitVec.getLsbD_and, getLsbD_oNonblock]
    by_cases hi : i = 11
    · subst hi
      simpa using hbit
    · simp [hi]
  · intro hbit heq
    have hand : (x &&& oNonblock).getLsbD 11 = (0 : BitVec 32).getLsbD 11 := by rw [heq]
    rw [BitVec.getLsbD_and, hbit, getLsbD_oNonblock] at hand
    exact absurd hand (by decide)

/-- What `F_GETFL` reports of the kernel's flags. -/
def reportedFlags (user : Bool) (flags : BitVec 32) : BitVec 32 :=
  if user then flags ||| oNonblock else flags &&& ~~~oNonblock

theorem getLsbD_reportedFlags (user : Bool) (flags : BitVec 32) {i : ℕ} (hi : i < 32) :
    (reportedFlags user flags).getLsbD i = if i = 11 then user else flags.getLsbD i := by
  unfold reportedFlags
  cases user with
  | true =>
      rw [if_pos rfl, BitVec.getLsbD_or, getLsbD_oNonblock]
      by_cases h : i = 11 <;> simp [h]
  | false =>
      rw [if_neg Bool.false_ne_true, BitVec.getLsbD_and, BitVec.getLsbD_not, getLsbD_oNonblock]
      by_cases h : i = 11 <;> simp [h, hi]

variable {settable : BitVec 32}

theorem getLsbD_setFlags (flags arg : BitVec 32) {i : ℕ} (hi : i < 32) :
    (setFlags settable flags arg).getLsbD i =
      if settable.getLsbD i then arg.getLsbD i else flags.getLsbD i := by
  rw [setFlags, BitVec.getLsbD_or, BitVec.getLsbD_and, BitVec.getLsbD_and, BitVec.getLsbD_not]
  cases settable.getLsbD i <;> simp [hi]

/-- `F_SETFL` with the flag added, seen through `F_GETFL`, is `F_SETFL`. -/
theorem reportedFlags_setFlags (hset : settable.getLsbD 11 = true) (user : Bool)
    (flags arg : BitVec 32) :
    reportedFlags (arg &&& oNonblock ≠ 0) (setFlags settable flags (arg ||| oNonblock)) =
      setFlags settable (reportedFlags user flags) arg := by
  refine BitVec.eq_of_getLsbD_eq fun i hi => ?_
  rw [getLsbD_reportedFlags _ _ hi, getLsbD_setFlags _ _ hi, getLsbD_setFlags _ _ hi,
    getLsbD_reportedFlags _ _ hi]
  by_cases h : i = 11
  · subst h
    rw [if_pos rfl, if_pos hset, Bool.eq_iff_iff, decide_eq_true_iff]
    exact and_oNonblock_ne_zero
  · simp [h, getLsbD_oNonblock]

/-- A refused `F_SETFL`, seen through `F_GETFL`, sets `O_NONBLOCK` and nothing else. -/
theorem reportedFlags_refused (user : Bool) (flags arg : BitVec 32) :
    reportedFlags (arg &&& oNonblock ≠ 0) flags =
      setFlags oNonblock (reportedFlags user flags) arg := by
  refine BitVec.eq_of_getLsbD_eq fun i hi => ?_
  rw [getLsbD_reportedFlags _ _ hi, getLsbD_setFlags _ _ hi, getLsbD_reportedFlags _ _ hi,
    getLsbD_oNonblock]
  by_cases h : i = 11
  · subst h
    rw [if_pos rfl, if_pos (by simp), Bool.eq_iff_iff, decide_eq_true_iff]
    exact and_oNonblock_ne_zero
  · simp [h]

theorem getLsbD_setNonblock (flags v : BitVec 32) {i : ℕ} (hi : i < 32) :
    (setNonblock flags v).getLsbD i = if i = 11 then decide (v ≠ 0) else flags.getLsbD i := by
  by_cases hv : v = 0
  · rw [setNonblock, if_neg (not_not.mpr hv), BitVec.getLsbD_and, BitVec.getLsbD_not,
      getLsbD_oNonblock]
    by_cases h : i = 11 <;> simp [h, hv, hi]
  · rw [setNonblock, if_pos hv, BitVec.getLsbD_or, getLsbD_oNonblock]
    by_cases h : i = 11
    · rw [decide_eq_true h, Bool.or_true, if_pos h, decide_eq_true hv]
    · simp [h]

/-- `FIONBIO`, seen through `F_GETFL`, is `FIONBIO`, also where the kernel's flags keep
their `O_NONBLOCK`. -/
theorem reportedFlags_fionbio (user : Bool) (flags v : BitVec 32) :
    reportedFlags (v ≠ 0) flags = setNonblock (reportedFlags user flags) v := by
  refine BitVec.eq_of_getLsbD_eq fun i hi => ?_
  rw [getLsbD_reportedFlags _ _ hi, getLsbD_setNonblock _ _ hi, getLsbD_reportedFlags _ _ hi]
  by_cases h : i = 11 <;> simp [h]

theorem reportedFlags_setNonblock (user : Bool) (flags v : BitVec 32) :
    reportedFlags user (setNonblock flags v) = reportedFlags user flags := by
  refine BitVec.eq_of_getLsbD_eq fun i hi => ?_
  rw [getLsbD_reportedFlags _ _ hi, getLsbD_setNonblock _ _ hi, getLsbD_reportedFlags _ _ hi]
  by_cases h : i = 11 <;> simp [h]

/-! ### The calls on one descriptor -/

/-- The context of a socket on which the library imposed the mode. -/
def FdCtx.imposed (user : Bool) : FdCtx :=
  { isInit := true, isSocket := true, sysNonblock := true, userNonblock := user }

structure Imposed (w : World) (fd : ℕ) (flags : BitVec 32) (user : Bool) : Prop where
  file : w.files fd = some ⟨true, flags⟩
  ctx : w.container fd = some (.imposed user)

/-- The state of a descriptor that a call on another one leaves alone. -/
structure SameAt (fd : ℕ) (w w' : World) : Prop where
  file : w'.files fd = w.files fd
  ctx : w'.container fd = w.container fd

def Call.fd : Call → ℕ
  | .track fd _ | .setfl fd _ _ | .getfl fd | .fionbio fd _ _ => fd

variable {w : World} {fd : ℕ} {flags : BitVec 32} {user refused : Bool}

theorem SameAt.setFile {d : ℕ} (hd : fd ≠ d) (f : File) : SameAt fd w (w.setFile d f) :=
  ⟨Function.update_of_ne hd _ _, rfl⟩

theorem SameAt.setCtx {d : ℕ} (hd : fd ≠ d) (ctx : FdCtx) : SameAt fd w (w.setCtx d ctx) :=
  ⟨rfl, Function.update_of_ne hd _ _⟩

theorem SameAt.trans {w' w'' : World} (h : SameAt fd w w') (h' : SameAt fd w' w'') :
    SameAt fd w w'' :=
  ⟨h'.file.trans h.file, h'.ctx.trans h.ctx⟩

theorem SameAt.fcntlSetF {d : ℕ} (hd : fd ≠ d) (arg : BitVec 32) :
    SameAt fd w (w.fcntlSetF settable refused d arg).2 := by
  unfold World.fcntlSetF
  split
  · split_ifs
    · exact ⟨rfl, rfl⟩
    · exact .setFile hd _
  · exact ⟨rfl, rfl⟩

theorem SameAt.ioctlF {d : ℕ} (hd : fd ≠ d) (v : BitVec 32) :
    SameAt fd w (w.ioctlF refused d v).2 := by
  unfold World.ioctlF
  split
  · split_ifs
    · exact ⟨rfl, rfl⟩
    · exact .setFile hd _
  · exact ⟨rfl, rfl⟩

theorem SameAt.init {d : ℕ} (hd : fd ≠ d) : SameAt fd w (w.init settable refused d).2 := by
  unfold World.init
  dsimp only
  split
  · exact ⟨rfl, rfl⟩
  · split_ifs
    · exact .fcntlSetF hd _
    · exact ⟨rfl, rfl⟩
    · exact ⟨rfl, rfl⟩

theorem SameAt.exec {call : Call} (hd : fd ≠ call.fd) : SameAt fd w (exec settable w call) := by
  cases call with
  | track d refused =>
      unfold HookModel.exec World.track
      dsimp only
      split
      · exact ⟨rfl, rfl⟩
      · exact (SameAt.init hd).trans (.setCtx hd _)
  | setfl d arg refused =>
      unfold HookModel.exec World.fcntlSetfl
      dsimp only
      split
      · exact .fcntlSetF hd _
      · exact (SameAt.setCtx hd _).trans (.fcntlSetF hd _)
  | getfl d => exact ⟨rfl, rfl⟩
  | fionbio d v refused =>
      unfold HookModel.exec World.ioctlFionbio
      dsimp only
      split
      · exact .ioctlF hd _
      · exact (SameAt.setCtx hd _).trans (.ioctlF hd _)

namespace Imposed

theorem hooked (h : Imposed w fd flags user) : w.hooked fd = some (.imposed user) := by
  rw [World.hooked, h.ctx]
  rfl

theorem fcntlGetfl (h : Imposed w fd flags user) : w.fcntlGetfl fd = reportedFlags user flags := by
  rw [World.fcntlGetfl, h.hooked, World.fcntlGetF, h.file]
  rfl

theorem sameAt {w' : World} (h : Imposed w fd flags user) (hs : SameAt fd w w') :
    Imposed w' fd flags user :=
  ⟨hs.file.trans h.file, hs.ctx.trans h.ctx⟩

theorem setCtx (h : Imposed w fd flags user) (user' : Bool) :
    Imposed (w.setCtx fd (.imposed user')) fd flags user' :=
  ⟨h.file, Function.update_self ..⟩

theorem setfl (h : Imposed w fd flags user) (arg : BitVec 32) (refused : Bool) :
    Imposed (w.fcntlSetfl settable refused fd arg).2 fd
      (if refused then flags else setFlags settable flags (arg ||| oNonblock))
      (arg &&& oNonblock ≠ 0) := by
  have hctx := h.setCtx (arg &&& oNonblock ≠ 0)
  have hcall : w.fcntlSetfl settable refused fd arg =
      (w.setCtx fd (.imposed (arg &&& oNonblock ≠ 0))).fcntlSetF settable refused fd
        (arg ||| oNonblock) := by
    rw [World.fcntlSetfl, h.hooked]
    rfl
  rw [hcall, World.fcntlSetF, hctx.file]
  cases refused with
  | true => exact hctx
  | false => exact ⟨Function.update_self .., hctx.ctx⟩

theorem fionbio (h : Imposed w fd flags user) (v : BitVec 32) (refused : Bool) :
    Imposed (w.ioctlFionbio refused fd v).2 fd (if refused then flags else setNonblock flags v)
      (v ≠ 0) := by
  have hctx := h.setCtx (v ≠ 0)
  have hcall : w.ioctlFionbio refused fd v =
      (w.setCtx fd (.imposed (v ≠ 0))).ioctlF refused fd v := by
    rw [World.ioctlFionbio, h.hooked]
    rfl
  rw [hcall, World.ioctlF, hctx.file]
  cases refused with
  | true => exact hctx
  | false => exact ⟨Function.update_self .., hctx.ctx⟩

theorem track (h : Imposed w fd flags user) :
    Imposed (w.track settable refused fd) fd flags user := by
  rw [World.track, h.ctx]
  exact h

end Imposed

/-! ### What the calls keep -/

/-- The mode is imposed, the kernel has it, and the user sees what was asked for. -/
def Kept (fd : ℕ) (w : World) (flags : BitVec 32) : Prop :=
  ∃ kernel user, Imposed w fd kernel user ∧ kernel.getLsbD 11 = true ∧
    reportedFlags user kernel = flags

theorem Kept.virtualised (h : Kept fd w flags) : Virtualised w fd flags := by
  obtain ⟨kernel, user, himposed, hbit, hflags⟩ := h
  exact ⟨⟨_, himposed.file, and_oNonblock_ne_zero.mpr hbit⟩, himposed.fcntlGetfl.trans hflags⟩

/-- Every call keeps it but `FIONBIO` with zero that the kernel carries out. -/
theorem Kept.exec (hset : settable.getLsbD 11 = true) (h : Kept fd w flags) {call : Call}
    (hcall : call ≠ .fionbio fd 0 false) :
    Kept fd (exec settable w call) (call.request settable fd flags) := by
  obtain ⟨kernel, user, himposed, hbit, rfl⟩ := h
  by_cases hd : fd = call.fd
  · cases call with
    | track d refused =>
        obtain rfl : fd = d := hd
        exact ⟨kernel, user, himposed.track, hbit, rfl⟩
    | getfl d => exact ⟨kernel, user, himposed, hbit, rfl⟩
    | setfl d arg refused =>
        obtain rfl : fd = d := hd
        refine ⟨_, _, himposed.setfl arg refused, ?_, ?_⟩
        · cases refused with
          | true => exact hbit
          | false =>
              rw [if_neg Bool.false_ne_true, getLsbD_setFlags _ _ (by decide), if_pos hset,
                BitVec.getLsbD_or, getLsbD_oNonblock]
              simp
        · rw [Call.request, if_pos rfl]
          cases refused with
          | true => exact reportedFlags_refused user kernel arg
          | false => exact reportedFlags_setFlags hset user kernel arg
    | fionbio d v refused =>
        obtain rfl : fd = d := hd
        refine ⟨_, _, himposed.fionbio v refused, ?_, ?_⟩
        · cases refused with
          | true => exact hbit
          | false =>
              have hv : v ≠ 0 := fun hv => hcall (by rw [hv])
              rw [if_neg Bool.false_ne_true, getLsbD_setNonblock _ _ (by decide), if_pos rfl]
              exact decide_eq_true hv
        · rw [Call.request, if_pos rfl, ← reportedFlags_fionbio user kernel v]
          cases refused with
          | true => rfl
          | false => exact reportedFlags_setNonblock _ kernel v
  · refine ⟨kernel, user, himposed.sameAt (.exec hd), hbit, ?_⟩
    cases call with
    | track d refused | getfl d => rfl
    | setfl d arg refused => exact (if_neg (Ne.symm hd)).symm
    | fionbio d v refused => exact (if_neg (Ne.symm hd)).symm

theorem Kept.after (hset : settable.getLsbD 11 = true) (h : Kept fd w flags) {calls : List Call}
    (hcalls : Call.fionbio fd 0 false ∉ calls) :
    Kept fd (after settable w calls) (asked settable fd flags calls) := by
  induction calls generalizing w flags with
  | nil => exact h
  | cons call calls ih =>
      obtain ⟨hne, hrest⟩ := not_or.mp (fun hc => hcalls (List.mem_cons.mpr hc))
      exact ih (h.exec hset (Ne.symm hne)) hrest

/-- A new context imposes the mode on a descriptor that is in blocking mode. -/
theorem kept_track (hset : settable.getLsbD 11 = true) (hfile : w.files fd = some ⟨true, flags⟩)
    (hnew : w.container fd = none) (hflags : flags &&& oNonblock = 0) :
    Kept fd (w.track settable false fd) flags := by
  have hget : w.fcntlGetF fd = flags := by rw [World.fcntlGetF, hfile]
  have hbit : flags.getLsbD 11 = false := by
    by_contra hc
    exact and_oNonblock_ne_zero.mpr (by simpa using hc) hflags
  have htrack : w.track settable false fd =
      ((w.fcntlSetF settable false fd (flags ||| oNonblock)).2).setCtx fd (.imposed false) := by
    rw [World.track, hnew, World.init, hfile]
    dsimp only
    rw [if_pos rfl, hget, if_pos hflags]
    rfl
  refine ⟨setFlags settable flags (flags ||| oNonblock), false, ?_, ?_, ?_⟩
  · rw [htrack, World.fcntlSetF, hfile]
    exact ⟨Function.update_self .., Function.update_self ..⟩
  · rw [getLsbD_setFlags _ _ (by decide), if_pos hset, BitVec.getLsbD_or, getLsbD_oNonblock]
    simp
  · refine BitVec.eq_of_getLsbD_eq fun i hi => ?_
    rw [getLsbD_reportedFlags _ _ hi, getLsbD_setFlags _ _ hi, BitVec.getLsbD_or,
      getLsbD_oNonblock]
    by_cases h : i = 11
    · rw [if_pos h, h, hbit]
    · simp [h]

/-! ### Where it is lost -/

/-- A descriptor that was non-blocking when it was created is reported as blocking. -/
theorem not_virtualised_track (hfile : w.files fd = some ⟨true, flags⟩)
    (hnew : w.container fd = none) (hflags : flags &&& oNonblock ≠ 0) :
    ¬Virtualised (w.track settable refused fd) fd flags := by
  intro hvirt
  have hget : w.fcntlGetF fd = flags := by rw [World.fcntlGetF, hfile]
  have htrack : w.track settable refused fd =
      w.setCtx fd { isInit := true, isSocket := true } := by
    rw [World.track, hnew, World.init, hfile]
    dsimp only
    rw [if_pos rfl, hget, if_neg hflags]
  have hhooked : (w.setCtx fd { isInit := true, isSocket := true }).hooked fd =
      some { isInit := true, isSocket := true } := by
    simp [World.hooked, World.setCtx]
  have hreported := hvirt.reported
  rw [htrack, World.fcntlGetfl, hhooked] at hreported
  have hclear : w.fcntlGetF fd &&& ~~~oNonblock = flags := hreported
  have hset := and_oNonblock_ne_zero.mp hflags
  rw [← hclear, BitVec.getLsbD_and, BitVec.getLsbD_not, getLsbD_oNonblock] at hset
  simp at hset

/-- A blocking descriptor on which the kernel refuses the `F_SETFL` of `FdCtx::init` stays
as it is, and the context says all the same that the mode was imposed. -/
theorem track_refused (hfile : w.files fd = some ⟨true, flags⟩)
    (hnew : w.container fd = none) (hflags : flags &&& oNonblock = 0) :
    (w.track settable true fd).files fd = some ⟨true, flags⟩ := by
  have hget : w.fcntlGetF fd = flags := by rw [World.fcntlGetF, hfile]
  have htrack : w.track settable true fd =
      ((w.fcntlSetF settable true fd (flags ||| oNonblock)).2).setCtx fd (.imposed false) := by
    rw [World.track, hnew, World.init, hfile]
    dsimp only
    rw [if_pos rfl, hget, if_pos hflags]
    rfl
  rw [htrack, World.fcntlSetF, hfile]
  exact hfile

/-- `FIONBIO` with zero is passed on to the kernel as it is. -/
theorem ioctlFionbio_blocking (w : World) (fd : ℕ) :
    ¬∃ f, (w.ioctlFionbio false fd 0).2.files fd = some f ∧ f.flags &&& oNonblock ≠ 0 := by
  have hkernel : ∀ w : World, ¬∃ f, (w.ioctlF false fd 0).2.files fd = some f ∧
      f.flags &&& oNonblock ≠ 0 := by
    rintro w ⟨f, hf, hbit⟩
    unfold World.ioctlF at hf
    split at hf
    · next g hg =>
        obtain rfl : { g with flags := setNonblock g.flags 0 } = f := by
          simpa [World.setFile] using hf
        rw [and_oNonblock_ne_zero, getLsbD_setNonblock _ _ (by decide)] at hbit
        simp at hbit
    · next hg => simp [hg] at hf
  unfold World.ioctlFionbio
  split
  · exact hkernel _
  · exact hkernel _

/-- The descriptor is in non-blocking mode after its context was created and after every call,
and `F_GETFL` reports the expected flags. `refused` is the kernel's answer to `FdCtx::init`. -/
def AlwaysVirtualised (settable : BitVec 32) (w : World) (fd : ℕ) (refused : Bool)
    (expected : List Call → BitVec 32) (calls : List Call) : Prop :=
  ∀ before, before <+: calls →
    Virtualised (after settable (w.track settable refused fd) before) fd (expected before)

/-- The mode is imposed on a descriptor with these flags, and nothing lifts it. -/
structure Imposes (fd : ℕ) (flags : BitVec 32) (refused : Bool) (calls : List Call) : Prop where
  blocking : flags &&& oNonblock = 0
  init : refused = false
  kept : Call.fionbio fd 0 false ∉ calls

/-- Whatever the reported flags are to be, as long as they are the creation flags at first. -/
theorem imposes_of_alwaysVirtualised {expected : List Call → BitVec 32} {calls : List Call}
    (hfile : w.files fd = some ⟨true, flags⟩) (hnew : w.container fd = none)
    (hnil : expected [] = flags) (hall : AlwaysVirtualised settable w fd refused expected calls) :
    Imposes fd flags refused calls := by
  have hcreated : Virtualised (w.track settable refused fd) fd flags := by
    rw [← hnil]
    exact hall [] List.nil_prefix
  have hblocking : flags &&& oNonblock = 0 := by
    by_contra hflags
    exact not_virtualised_track hfile hnew hflags hcreated
  refine ⟨hblocking, ?_, fun hmem => ?_⟩
  · cases refused with
    | false => rfl
    | true =>
        obtain ⟨f, hf, hbit⟩ := hcreated.nonblocking
        rw [track_refused hfile hnew hblocking] at hf
        obtain rfl := Option.some.inj hf
        exact absurd hblocking hbit
  · obtain ⟨before, rest, rfl⟩ := List.append_of_mem hmem
    have hvirt := hall (before ++ [.fionbio fd 0 false]) ⟨rest, by simp⟩
    have hnonblocking := hvirt.nonblocking
    rw [after, List.foldl_append] at hnonblocking
    exact ioctlFionbio_blocking _ fd hnonblocking

theorem Imposes.alwaysVirtualised {calls : List Call} (h : Imposes fd flags refused calls)
    (hset : settable.getLsbD 11 = true) (hfile : w.files fd = some ⟨true, flags⟩)
    (hnew : w.container fd = none) :
    AlwaysVirtualised settable w fd refused (asked settable fd flags) calls := by
  intro before hpre
  obtain ⟨hblocking, rfl, hkept⟩ := h
  have hbefore : Call.fionbio fd 0 false ∉ before := fun hmem => hkept (hpre.subset hmem)
  exact ((kept_track hset hfile hnew hblocking).after hset hbefore).virtualised

/-- When non-blocking mode is virtualised faithfully. For every socket without a context
yet, whatever its flags, and every sequence of calls on this and other descriptors, whichever
of them the kernel refuses: exactly when the socket was in blocking mode as the context was
created, the kernel let `FdCtx::init` impose the mode, and it carried out no `FIONBIO` with
zero on it. Where a refused request is to count as none, moreover no refused request may have
asked for another `O_NONBLOCK` than the one in force: the hooks store it before they know. -/
theorem alwaysVirtualised_iff (settable : BitVec 32) (hset : settable.getLsbD 11 = true)
    (w : World) (fd : ℕ) (flags : BitVec 32) (hfile : w.files fd = some ⟨true, flags⟩)
    (hnew : w.container fd = none) (refused : Bool) (calls : List Call) :
    (AlwaysVirtualised settable w fd refused (asked settable fd flags) calls ↔
      Imposes fd flags refused calls) ∧
    (AlwaysVirtualised settable w fd refused (granted settable fd flags) calls ↔
      Imposes fd flags refused calls ∧
        ∀ before, before <+: calls →
          asked settable fd flags before = granted settable fd flags before) := by
  refine ⟨⟨imposes_of_alwaysVirtualised hfile hnew rfl,
    fun himposes => himposes.alwaysVirtualised hset hfile hnew⟩, fun hall => ?_, ?_⟩
  · have himposes := imposes_of_alwaysVirtualised hfile hnew rfl hall
    refine ⟨himposes, fun before hpre => ?_⟩
    have hasked := himposes.alwaysVirtualised hset hfile hnew before hpre
    exact hasked.reported.symm.trans (hall before hpre).reported
  · rintro ⟨himposes, hequal⟩ before hpre
    rw [← hequal before hpre]
    exact himposes.alwaysVirtualised hset hfile hnew before hpre

/-- The flags that `F_SETFL` changes on Linux: `O_APPEND`, `O_NONBLOCK`, `O_ASYNC`,
`O_DIRECT`, `O_NOATIME`. -/
def linuxSettable : BitVec 32 := 0x46c00#32

/-- One socket, descriptor 3. -/
def World.oneSocket (flags : BitVec 32) : World where
  files fd := if fd = 3 then some ⟨true, flags⟩ else none
  container _ := none

/-- A blocking socket of which the user sets and clears the flag; the kernel refuses
`O_DIRECT`. -/
theorem alwaysVirtualised_blocking_socket :
    AlwaysVirtualised linuxSettable (.oneSocket 2#32) 3 false (asked linuxSettable 3 2#32)
      [.setfl 3 0x4802#32 true, .getfl 3, .fionbio 3 1 false, .setfl 3 2#32 false] :=
  ((alwaysVirtualised_iff linuxSettable (by decide) _ 3 _ rfl rfl false _).1).mpr
    ⟨by decide, rfl, by decide⟩

/-- A socket made with `SOCK_NONBLOCK`: `F_GETFL` does not report the flag. And on a socket
that was blocking, `FIONBIO` with zero leaves the kernel descriptor blocking. -/
theorem not_alwaysVirtualised :
    ¬AlwaysVirtualised linuxSettable (.oneSocket (2#32 ||| oNonblock)) 3 false
        (asked linuxSettable 3 (2#32 ||| oNonblock)) [] ∧
      ¬AlwaysVirtualised linuxSettable (.oneSocket 2#32) 3 false (asked linuxSettable 3 2#32)
        [.fionbio 3 0 false] := by
  constructor
  · intro hall
    have hcreated : Virtualised
        ((World.oneSocket (2#32 ||| oNonblock)).track linuxSettable false 3) 3
        (2#32 ||| oNonblock) := hall [] List.nil_prefix
    exact not_virtualised_track rfl rfl (by decide) hcreated
  · intro hall
    exact ioctlFionbio_blocking _ 3 (hall [.fionbio 3 0 false] (List.prefix_refl _)).nonblocking

end Xzmjx.HookModel
