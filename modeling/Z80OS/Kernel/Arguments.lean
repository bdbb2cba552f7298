import Mathlib.Tactic.IntervalCases
import Z80OS.File.Format
import Z80OS.Kernel.Process
import Z80OS.Lib.Stores

set_option relaxedAutoImplicit false
set_option autoImplicit false

/-!
# The arguments of a process

`process_spawn` packs the arguments of a process into a local buffer, together with the addresses
that they will have in the bank of the process, and copies the count, the addresses and the text
there. The array of the addresses has 16 elements and 32 bytes, of which 16 are copied. Behind these
the bank has the text, so the pointers from the ninth on are read from the text itself.

## Main definitions

* `Z80OS.UserMemory`, `Z80OS.ramCopy` — the banks of user memory, and copying into one.
* `Z80OS.packArguments`, `Z80OS.copyArguments`, `Z80OS.processSpawnInto` — the spawn of a process
  with the contents of user memory.
* `Z80OS.ArgumentsArrive` — the process finds its arguments.
* `Z80OS.Spelled` — the text has addresses at the places of the missing pointers.

## Main results

* `Z80OS.packArguments_eq` — what the local buffers hold.
* `Z80OS.arguments_arrive_iff` — when the arguments arrive.
* `Z80OS.not_arguments_arrive` — nine arguments.
-/

namespace Z80OS

/-- The bytes of user memory, by bank and address. -/
abbrev UserMemory := UInt8 → ℕ → UInt8

/-- The address of the number of arguments. -/
def processArgc : ℕ := 0xf800

/-- The address of the pointers to the arguments. -/
def processArgv : ℕ := 0xf810

/-- The address of the text of the arguments. -/
def processArgs : ℕ := 0xf820

/-- The size of the local buffer for the text. -/
def argBufferSize : ℕ := 512

/-- The number of elements of the local array of pointers. -/
def argvMax : ℕ := 16

/-- Copies bytes to an address of a bank. The pointer to the destination is 16 bits wide. The loop
of the source is entered before the count is looked at; no call copies zero bytes. -/
def ramCopy (m : UserMemory) (dst : ℕ) (bank : UInt8) (src : List UInt8) : UserMemory :=
  Function.update m bank (Stores.all (m bank) (Stores.block 65536 dst src))

/-- The local buffers of `process_spawn`, which are not initialised. -/
structure SpawnBuffers where
  argBuffer : ℕ → UInt8
  argvBuffer : ℕ → ℕ

/-- The loop over the arguments, from the argument `i` on, whose text goes to the given offset of
the buffer. An argument is given by its bytes in front of the terminator. The loop gives no result
when one of the buffers is too small. -/
def packArguments (l : SpawnBuffers) (i offset : ℕ) : List (List UInt8) → Option SpawnBuffers
  | [] => some l
  | s :: argv =>
    if argvMax ≤ i ∨ argBufferSize < offset + (s.length + 1) then none
    else
      packArguments
        { argBuffer := Stores.all l.argBuffer (Stores.block 65536 offset (s ++ [0]))
          argvBuffer := Function.update l.argvBuffer i (offset + processArgs) }
        (i + 1) (offset + (s.length + 1)) argv

/-- The bytes of the array of pointers. -/
def SpawnBuffers.argvBytes (l : SpawnBuffers) : List UInt8 :=
  ((List.range argvMax).map fun i => bytes16 (l.argvBuffer i)).flatten

/-- The bytes of the buffer for the text. -/
def SpawnBuffers.argBytes (l : SpawnBuffers) : List UInt8 :=
  (List.range argBufferSize).map l.argBuffer

/-- Copies the count, 16 bytes of the pointers, and the text into a bank. -/
def copyArguments (m : UserMemory) (bank : UInt8) (argc : ℕ) (l : SpawnBuffers) : UserMemory :=
  let m := ramCopy m processArgc bank (bytes16 argc)
  let m := ramCopy m processArgv bank (l.argvBytes.take 16)
  ramCopy m processArgs bank l.argBytes

/-- `process_spawn` with the contents of user memory. The buffers `l` are what the stack holds. -/
def processSpawnInto (l : SpawnBuffers) (m : UserMemory) (k : Kernel) (pd : ℤ)
    (argv : List (List UInt8)) : Option (ℤ × Kernel × UserMemory) :=
  match packArguments l 0 0 argv with
  | none => none
  | some l =>
    match processIndex? pd with
    | none => none
    | some i =>
      let m := copyArguments m (k.processTable i).bank argv.length l
      (processSpawn k pd).map fun r => (r.1, r.2, m)

/-! ## What the arguments are to look like -/

/-- The text of some arguments, each with its terminator. -/
def argText (argv : List (List UInt8)) : List UInt8 := argv.flatMap fun s => s ++ [0]

/-- The word at an address of a bank. -/
def wordAt (b : ℕ → UInt8) (a : ℕ) : ℕ := word16 (b a) (b (a + 1))

/-- The pointer `p` addresses a copy of a string inside the area for the text. -/
structure Addresses (b : ℕ → UInt8) (p : ℕ) (s : List UInt8) : Prop where
  low : processArgs ≤ p
  high : p + (s.length + 1) ≤ processArgs + argBufferSize
  copy : ∀ j (h : j < (s ++ [0]).length), b (p + j) = (s ++ [0])[j]

/-- The process with the given bank finds its arguments. -/
structure ArgumentsArrive (argv : List (List UInt8)) (b : ℕ → UInt8) : Prop where
  argc : wordAt b processArgc = argv.length
  argv : ∀ i (h : i < argv.length), Addresses b (wordAt b (processArgv + 2 * i)) argv[i]

/-- The area for the text: the text of the arguments, behind which the buffer is not initialised. -/
def argArea (l : SpawnBuffers) (argv : List (List UInt8)) (a : ℕ) : UInt8 :=
  (argText argv).getD (a - processArgs) (l.argBuffer (a - processArgs))

/-- From the ninth argument on the text has, two bytes for each argument, an address of a copy of
the argument. -/
def Spelled (l : SpawnBuffers) (argv : List (List UInt8)) : Prop :=
  ∀ i (h : i < argv.length), 8 ≤ i →
    Addresses (argArea l argv) (wordAt (argArea l argv) (processArgs + 2 * (i - 8))) argv[i]

section

variable {l l' : SpawnBuffers} {m : UserMemory} {bank : UInt8} {argv : List (List UInt8)}
  {s : List UInt8} {b : ℕ → UInt8} {i j offset argc p a : ℕ}

/-- The text of the first argument in front of the other ones. -/
theorem argText_cons : argText (s :: argv) = s ++ [0] ++ argText argv := rfl

/-- The texts of two vectors one after the other. -/
theorem argText_append {argv' : List (List UInt8)} :
    argText (argv ++ argv') = argText argv ++ argText argv' := List.flatMap_append

/-- The text of an argument stands behind the texts of those in front of it. -/
theorem argText_split (h : i < argv.length) :
    argText argv = argText (argv.take i) ++ (argv[i] ++ [0] ++ argText (argv.drop (i + 1))) := by
  rw [← argText_cons, ← List.drop_eq_getElem_cons h, ← argText_append, List.take_append_drop]

/-- **The local buffers.** The loop packs the texts one behind the other, and stores where each of
them will be.

**Proof sketch.** Induction on the arguments. The text of the first one goes to the offset, that of
the others behind it, and no later turn stores to the element of the first one. -/
theorem packArguments_eq (hargc : i + argv.length ≤ argvMax)
    (htext : offset + (argText argv).length ≤ argBufferSize) :
    ∃ l', packArguments l i offset argv = some l' ∧
      l'.argBuffer = Stores.all l.argBuffer (Stores.block 65536 offset (argText argv)) ∧
      (∀ j < i, l'.argvBuffer j = l.argvBuffer j) ∧
      ∀ j < argv.length,
        l'.argvBuffer (i + j) = processArgs + (offset + (argText (argv.take j)).length) := by
  induction argv generalizing l i offset with
  | nil => exact ⟨l, rfl, rfl, fun _ _ => rfl, fun j hj => absurd hj (Nat.not_lt_zero j)⟩
  | cons s argv ih =>
    rw [List.length_cons] at hargc
    rw [argText_cons, List.length_append, List.length_append, List.length_singleton] at htext
    obtain ⟨l', hpack, hbuffer, hbelow, habove⟩ := @ih
      { argBuffer := Stores.all l.argBuffer (Stores.block 65536 offset (s ++ [0]))
        argvBuffer := Function.update l.argvBuffer i (offset + processArgs) }
      (i + 1) (offset + (s.length + 1)) (by omega) (by omega)
    have hsplit : Stores.block 65536 offset (s ++ [0] ++ argText argv) =
        Stores.block 65536 offset (s ++ [0]) ++
          Stores.block 65536 (offset + (s.length + 1)) (argText argv) :=
      Stores.block_append.trans (by rw [List.length_append, List.length_singleton])
    refine ⟨l', ?_, ?_, fun j hj => ?_, fun j hj => ?_⟩
    · rw [packArguments, if_neg (by omega), hpack]
    · rw [hbuffer, argText_cons, hsplit, Stores.all_append]
    · rw [hbelow j (by omega)]
      exact Function.update_of_ne (by omega) ..
    · cases j with
      | zero =>
        rw [Nat.add_zero, hbelow i (Nat.lt_succ_self i)]
        exact (Function.update_self ..).trans (Nat.add_comm ..)
      | succ j =>
        rw [List.length_cons] at hj
        rw [show i + (j + 1) = i + 1 + j by omega, habove j (by omega), List.take_succ_cons,
          argText_cons, List.length_append, List.length_append, List.length_singleton]
        omega

/-! ## The bank of the process -/

/-- The vector has two bytes for each pointer. -/
theorem length_argvBytes : l.argvBytes.length = 2 * argvMax := rfl

/-- The buffer is copied as a whole. -/
theorem length_argBytes : l.argBytes.length = argBufferSize := by
  rw [SpawnBuffers.argBytes, List.length_map, List.length_range]

/-- The bytes of the pointers that are copied. -/
theorem argvBytes_take (hi : i < 8) :
    (l.argvBytes.take 16)[2 * i]? = some (UInt8.ofNat (l.argvBuffer i)) ∧
      (l.argvBytes.take 16)[2 * i + 1]? = some (UInt8.ofNat (l.argvBuffer i / 256)) := by
  interval_cases i <;> exact ⟨rfl, rfl⟩

/-- A byte that has been copied. -/
theorem ramCopy_self {dst : ℕ} {src : List UInt8} (hlen : dst + src.length ≤ 65536) {k : ℕ}
    (hk : k < src.length) : ramCopy m dst bank src bank (dst + k) = src[k] := by
  rw [ramCopy, Function.update_self, Stores.all_block hlen hk]

/-- The other bytes are left. -/
theorem ramCopy_of_not {dst : ℕ} {src : List UInt8} (hlen : dst + src.length ≤ 65536)
    (h : a < dst ∨ dst + src.length ≤ a) : ramCopy m dst bank src bank a = m bank a := by
  rw [ramCopy, Function.update_self, Stores.all_block_of_not hlen h]

/-- The other banks are left alone. -/
theorem copyArguments_other {bank' : UInt8} (h : bank' ≠ bank) :
    copyArguments m bank argc l bank' = m bank' := by
  simp only [copyArguments, ramCopy, Function.update_of_ne h]

/-- The number of arguments in the bank. -/
theorem copyArguments_argc (hargc : argc < 65536) :
    wordAt (copyArguments m bank argc l bank) processArgc = argc := by
  have hbyte : ∀ k (hk : k < 2), copyArguments m bank argc l bank (processArgc + k) =
      (bytes16 argc)[k] := by
    intro k hk
    simp only [copyArguments]
    rw [ramCopy_of_not (by rw [length_argBytes]; decide)
        (.inl (by simp only [processArgc, processArgs]; omega)),
      ramCopy_of_not (by rw [List.length_take, length_argvBytes]; decide)
        (.inl (by simp only [processArgc, processArgv]; omega)),
      ramCopy_self (by rw [length_bytes16]; decide) hk]
  have h₀ := hbyte 0 (by decide)
  rw [Nat.add_zero] at h₀
  rw [wordAt, h₀, hbyte 1 (by decide)]
  exact (word16_ofNat argc).trans (Nat.mod_eq_of_lt hargc)

/-- The first eight pointers in the bank. -/
theorem copyArguments_argv (hi : i < 8) (hlt : l.argvBuffer i < 65536) :
    wordAt (copyArguments m bank argc l bank) (processArgv + 2 * i) = l.argvBuffer i := by
  have hlen : (l.argvBytes.take 16).length = 16 := by rw [List.length_take, length_argvBytes]; rfl
  have hbyte : ∀ k (hk : k < (l.argvBytes.take 16).length),
      copyArguments m bank argc l bank (processArgv + k) = (l.argvBytes.take 16)[k] := by
    intro k hk
    simp only [copyArguments]
    rw [ramCopy_of_not (by rw [length_argBytes]; decide)
        (.inl (by simp only [processArgv, processArgs]; omega)),
      ramCopy_self (by rw [hlen]; decide) hk]
  obtain ⟨hlo, hhi⟩ := argvBytes_take (l := l) hi
  rw [wordAt, Nat.add_assoc, hbyte (2 * i) (by omega), hbyte (2 * i + 1) (by omega),
    (List.getElem_eq_iff _).mpr hlo, (List.getElem_eq_iff _).mpr hhi, word16_ofNat,
    Nat.mod_eq_of_lt hlt]

/-- The text in the bank. -/
theorem copyArguments_args (ha : processArgs ≤ a) (hlt : a < processArgs + argBufferSize) :
    copyArguments m bank argc l bank a = l.argBuffer (a - processArgs) := by
  have hk : a - processArgs < l.argBytes.length := by
    rw [length_argBytes]
    omega
  have hcopy : copyArguments m bank argc l bank (processArgs + (a - processArgs)) =
      l.argBytes[a - processArgs] := ramCopy_self (by rw [length_argBytes]; decide) hk
  rw [Nat.add_sub_cancel' ha] at hcopy
  rw [hcopy]
  simp [SpawnBuffers.argBytes]

/-- The text in the bank, when the buffers hold the arguments. -/
theorem copyArguments_area (htext : (argText argv).length ≤ argBufferSize)
    (hbuffer : l'.argBuffer = Stores.all l.argBuffer (Stores.block 65536 0 (argText argv)))
    (ha : processArgs ≤ a) (hlt : a < processArgs + argBufferSize) :
    copyArguments m bank argc l' bank a = argArea l argv a := by
  have hlen : 0 + (argText argv).length ≤ 65536 := by
    simp only [argBufferSize] at htext
    omega
  rw [copyArguments_args ha hlt, hbuffer, argArea]
  rcases Nat.lt_or_ge (a - processArgs) (argText argv).length with hin | hout
  · rw [List.getD_eq_getElem _ _ hin, ← Stores.all_block (m := l.argBuffer) hlen hin, Nat.zero_add]
  · rw [List.getD_eq_default _ _ hout, Stores.all_block_of_not hlen (.inr (by omega))]

/-! ## The arguments -/

/-- What a pointer addresses depends on the area for the text only. -/
theorem Addresses.congr {b' : ℕ → UInt8}
    (hb : ∀ a, processArgs ≤ a → a < processArgs + argBufferSize → b a = b' a)
    (h : Addresses b p s) : Addresses b' p s := by
  refine ⟨h.low, h.high, fun j hj => ?_⟩
  have hlow := h.low
  have hhigh := h.high
  have hlen : j < s.length + 1 := by rwa [List.length_append, List.length_singleton] at hj
  rw [← hb (p + j) (by omega) (by omega)]
  exact h.copy j hj

/-- The bytes of an argument in the area for the text. -/
theorem argArea_copy (h : i < argv.length) (hj : j < (argv[i] ++ [0]).length) :
    argArea l argv (processArgs + (argText (argv.take i)).length + j) = (argv[i] ++ [0])[j] := by
  have hsplit := argText_split h
  have hplace : processArgs + (argText (argv.take i)).length + j - processArgs =
      (argText (argv.take i)).length + j := by omega
  have hj' : (argText (argv.take i)).length + j < (argText argv).length := by
    rw [congrArg List.length hsplit, List.length_append, List.length_append]
    omega
  rw [argArea, hplace, List.getD_eq_getElem _ _ hj', List.getElem_of_eq hsplit,
    List.getElem_append_right (Nat.le_add_right ..)]
  simp only [Nat.add_sub_cancel_left]
  exact List.getElem_append_left hj

/-- The place of an argument in the area for the text. -/
theorem argArea_addresses (htext : (argText argv).length ≤ argBufferSize) (h : i < argv.length)
    (hp : p = processArgs + (argText (argv.take i)).length) :
    Addresses (argArea l argv) p argv[i] := by
  have hlen := congrArg List.length (argText_split h)
  rw [List.length_append, List.length_append, List.length_append, List.length_singleton] at hlen
  refine ⟨by omega, by omega, fun j hj => ?_⟩
  rw [hp]
  exact argArea_copy h hj

/-- The pointers that are missing are read from the text. -/
theorem copyArguments_missing (htext : (argText argv).length ≤ argBufferSize)
    (hbuffer : l'.argBuffer = Stores.all l.argBuffer (Stores.block 65536 0 (argText argv)))
    (h8 : 8 ≤ i) (hi : i < argvMax) :
    wordAt (copyArguments m bank argc l' bank) (processArgv + 2 * i) =
      wordAt (argArea l argv) (processArgs + 2 * (i - 8)) := by
  have hplace : processArgv + 2 * i = processArgs + 2 * (i - 8) := by
    simp only [processArgv, processArgs]
    omega
  simp only [argvMax] at hi
  rw [hplace, wordAt, wordAt,
    copyArguments_area htext hbuffer (by omega) (by simp only [argBufferSize]; omega),
    copyArguments_area htext hbuffer (by omega) (by simp only [argBufferSize]; omega)]

/-- The spawn of a process with arguments that fit into the buffers. -/
theorem processSpawnInto_eq (l : SpawnBuffers) (m : UserMemory) (k : Kernel) {pd : ℤ}
    {slot : Fin procsMax} (hpd : processIndex? pd = some slot) (hargc : argv.length ≤ argvMax)
    (htext : (argText argv).length ≤ argBufferSize) :
    ∃ r k' l', processSpawn k pd = some (r, k') ∧
      processSpawnInto l m k pd argv =
        some (r, k', copyArguments m (k.processTable slot).bank argv.length l') ∧
      l'.argBuffer = Stores.all l.argBuffer (Stores.block 65536 0 (argText argv)) ∧
      ∀ j < argv.length, l'.argvBuffer j = processArgs + (argText (argv.take j)).length := by
  obtain ⟨l', hpack, hbuffer, -, hpointers⟩ := packArguments_eq (l := l) (i := 0)
    (show 0 + argv.length ≤ argvMax by omega)
    (show 0 + (argText argv).length ≤ argBufferSize by omega)
  simp only [Nat.zero_add] at hpointers
  have hspawn : processSpawn k pd = some ((schedulerAdd k.scheduler pd).1,
      { k with scheduler := (schedulerAdd k.scheduler pd).2 }) := by
    rw [processSpawn, hpd]
    rfl
  refine ⟨_, _, l', hspawn, ?_, hbuffer, hpointers⟩
  simp only [processSpawnInto, hpack, hpd, hspawn, Option.map_some]

/-- **Arguments.** With at most 16 arguments of at most 512 bytes, a process can be spawned, and its
arguments arrive if and only if there are no more than eight of them, or the text happens to have
addresses of copies of the others where their pointers are missing.

**Proof sketch.** The pointers to the first eight arguments lie in front of the text that is copied
to the process. The places of the other pointers are in the text (`copyArguments_missing`), so that
the process finds there what the text happens to have. -/
theorem arguments_arrive_iff (l : SpawnBuffers) (m : UserMemory) (k : Kernel) {pd : ℤ}
    {slot : Fin procsMax} {argv : List (List UInt8)} (hpd : processIndex? pd = some slot)
    (hargc : argv.length ≤ argvMax) (htext : (argText argv).length ≤ argBufferSize) :
    ∃ r k' m', processSpawnInto l m k pd argv = some (r, k', m') ∧
      processSpawn k pd = some (r, k') ∧
      (ArgumentsArrive argv (m' (k.processTable slot).bank) ↔
        argv.length ≤ 8 ∨ Spelled l argv) := by
  obtain ⟨r, k', l', hspawn, hinto, hbuffer, hpointers⟩ := processSpawnInto_eq l m k hpd hargc htext
  refine ⟨r, k', _, hinto, hspawn, ?_⟩
  generalize hb : copyArguments m (k.processTable slot).bank argv.length l'
    (k.processTable slot).bank = b
  have harea : ∀ a, processArgs ≤ a → a < processArgs + argBufferSize → b a = argArea l argv a :=
    fun a ha hlt => hb ▸ copyArguments_area htext hbuffer ha hlt
  have hmissing : ∀ i < argv.length, 8 ≤ i → wordAt b (processArgv + 2 * i) =
      wordAt (argArea l argv) (processArgs + 2 * (i - 8)) :=
    fun i hi h8 => hb ▸ copyArguments_missing htext hbuffer h8 (Nat.lt_of_lt_of_le hi hargc)
  constructor
  · intro h
    refine .inr fun i hi h8 => ?_
    rw [← hmissing i hi h8]
    exact (h.argv i hi).congr harea
  · intro h
    refine ⟨?_, fun i hi => ?_⟩
    · simp only [argvMax] at hargc
      rw [← hb]
      exact copyArguments_argc (by omega)
    · rcases Nat.lt_or_ge i 8 with hi8 | hi8
      · have haddr := argArea_addresses (l := l) htext hi (hpointers i hi)
        have hlt : l'.argvBuffer i < 65536 := by
          have hhigh := haddr.high
          simp only [processArgs, argBufferSize] at hhigh
          omega
        rw [← hb, copyArguments_argv hi8 hlt, hb]
        exact haddr.congr fun a ha hlt => (harea a ha hlt).symm
      · rw [hmissing i hi hi8]
        have hspelled : Spelled l argv := h.resolve_left (by omega)
        exact (hspelled i hi hi8).congr fun a ha hlt => (harea a ha hlt).symm

end

/-! ## Nine arguments -/

/-- A kernel without processes. -/
def idleKernel : Kernel where
  files := .zeroed fun _ => Sector.zero
  memory := .zeroed
  processTable := fun _ => ⟨0, 0, 0, 0, 0, 0⟩
  scheduler := .zeroed

/-- The first slot of the process table. -/
def firstSlot : Fin procsMax := ⟨0, by decide⟩

/-- The arguments `A` and `BC`. -/
theorem arguments_arrive_iff_two :
    ∃ r k' m', processSpawnInto ⟨fun _ => 0, fun _ => 0⟩ (fun _ _ => 0) idleKernel 0
        [[0x41], [0x42, 0x43]] = some (r, k', m') ∧
      ArgumentsArrive [[0x41], [0x42, 0x43]] (m' 0) := by
  obtain ⟨r, k', m', hspawn, -, hiff⟩ := arguments_arrive_iff ⟨fun _ => 0, fun _ => 0⟩
    (fun _ _ => 0) idleKernel (show processIndex? 0 = some firstSlot by decide)
    (show [[0x41], [0x42, 0x43]].length ≤ argvMax by decide) (by decide)
  exact ⟨r, k', m', hspawn, hiff.mpr (.inl (by decide))⟩

/-- Nine arguments of one letter. -/
def nineArguments : List (List UInt8) := List.replicate 9 [0x41]

/-- The pointer to the ninth argument is not copied. -/
theorem not_arguments_arrive :
    ¬ ∀ (l : SpawnBuffers) (m : UserMemory) (k : Kernel) (pd : ℤ) (slot : Fin procsMax)
      (argv : List (List UInt8)), processIndex? pd = some slot → argv.length ≤ argvMax →
      (argText argv).length ≤ argBufferSize →
      ∃ r k' m', processSpawnInto l m k pd argv = some (r, k', m') ∧
        ArgumentsArrive argv (m' (k.processTable slot).bank) := by
  intro h
  obtain ⟨r, k', l', -, hinto, hbuffer, -⟩ := processSpawnInto_eq ⟨fun _ => 0, fun _ => 0⟩
    (fun _ _ => 0) idleKernel (show processIndex? 0 = some firstSlot by decide)
    (show nineArguments.length ≤ argvMax by decide) (by decide)
  obtain ⟨r₁, k₁, m₁, hspawn, harrive⟩ := h ⟨fun _ => 0, fun _ => 0⟩ (fun _ _ => 0) idleKernel 0
    firstSlot nineArguments (by decide) (by decide) (by decide)
  rw [hinto, Option.some.injEq, Prod.mk.injEq, Prod.mk.injEq] at hspawn
  obtain ⟨-, -, rfl⟩ := hspawn
  -- the pointer to the ninth argument is made of the first one and its terminator
  have hlow := (harrive.argv 8 (by decide)).low
  rw [copyArguments_missing (by decide) hbuffer (Nat.le_refl 8) (by decide)] at hlow
  exact absurd hlow (by decide)

end Z80OS
