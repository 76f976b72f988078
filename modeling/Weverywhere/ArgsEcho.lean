import Weverywhere.BareSizes
import Weverywhere.GuestMemory
import Weverywhere.ForwardedProgram
import Weverywhere.IdentityValidity
import Weverywhere.PathDisplay
import Weverywhere.WireFormat

/-!
The arguments of a program from the command line to the program: `parse_arg_map`
(`src/src/args.rs`), the request of `run`, its bytes, the `host::arg_*` imports of the
node that executes it, and `args-echo.c`, which reads everything into two buffers and
prints it. `create_pid` gives it fuel for 128000 instructions; how many a part of it
takes is up to the compiler.
-/
namespace Weverywhere.ArgsEcho

open ByteStrings Messages Node MessagesRead NetworkMap GuestMemory Bare WireFormat

/-! The command line. -/

/-- `str::split_once` -/
def splitOnce (separator : Char) : List Char → Option (List Char × List Char)
  | [] => none
  | ch :: rest =>
    if ch = separator then some ([], rest)
    else (splitOnce separator rest).map fun (front, back) => (ch :: front, back)

def parseArg (entry : String) : String × String :=
  match splitOnce '=' entry.toList with
  | some (k, v) => (String.ofList k, String.ofList v)
  | none => (entry, "")

def parseArgMap (entries : List String) : List (String × String) := entries.map parseArg

/-! The guest. -/

structure Guest where
  memory : LinearMemory
  printed : List Bytes

def Guest.say (g : Guest) (data : Bytes) : Guest := { g with printed := g.printed ++ [data] }

/-- `host::print`; a trap ends the program. -/
def hostPrint (g : Guest) (ptr len : Int32) : Option Guest :=
  (print g.memory ptr len).result.map g.say

/-- A text that stands in the data of the program. -/
def puts (g : Guest) (text : String) : Guest := g.say (utf8 text)

def copyOut (g : Guest) (ptr cap : Int32) (src : Bytes) : Option (Guest × Int32) :=
  let o := GuestMemory.writeGuestBytes g.memory ptr cap src
  o.result.map fun n => ({ g with memory := o.memory }, n)

def hostArgGet (running : RunningProgram) (g : Guest) (index ptr cap : Int32) :
    Option (Guest × Int32) :=
  match getIndex running.data.argList index with
  | some s => copyOut g ptr cap (utf8 s)
  | none => some (g, -1)

def hostArgMapKey (running : RunningProgram) (g : Guest) (index ptr cap : Int32) :
    Option (Guest × Int32) :=
  match getIndex running.data.argMap index with
  | some (k, _) => copyOut g ptr cap (utf8 k)
  | none => some (g, -1)

def hostArgMapGet (running : RunningProgram) (g : Guest) (keyPtr keyLen ptr cap : Int32) :
    Option (Guest × Int32) := do
  let key ← (readGuestBytes g.memory keyPtr keyLen).result
  match running.data.argMap.find? fun kv => kv.1 == fromUtf8Lossy key with
  | some (_, v) => copyOut g ptr cap (utf8 v)
  | none => some (g, -1)

/-- The instructions of the compiled program: up to the first loop, what runs before
`_start` included, between the loops, and in a turn of either. A turn is the same
whatever the memory has, as only the answers of the imports are branched on. -/
structure Costs where
  enter : ℕ
  positional : Int32 → ℕ
  between : ℕ
  named : Int32 → Int32 → ℕ

/-- `store.set_fuel(128_000)` -/
def startFuel : ℕ := 128000

/-- A program traps where its fuel is used up. -/
def spend (fuel instructions : ℕ) : Option ℕ :=
  if instructions < fuel then some (fuel - instructions) else none

structure Metered where
  guest : Guest
  fuel : ℕ

/-- Where the linker has put the two buffers in a memory of `size` bytes. -/
structure Buffers (size : ℕ) where
  valbuf : ℕ
  keybuf : ℕ
  val_end : valbuf + 512 ≤ size
  key_end : keybuf + 256 ≤ size
  apart : valbuf + 512 ≤ keybuf ∨ keybuf + 256 ≤ valbuf
  size_le : size ≤ 2 ^ 31

section Program

variable (costs : Costs) {size : ℕ} (b : Buffers size) (running : RunningProgram)

def valPtr : Int32 := Int32.ofNat b.valbuf

def keyPtr : Int32 := Int32.ofNat b.keybuf

/-- `if (l < 0) l = 0;` -/
def orZero (l : Int32) : Int32 := if l < 0 then 0 else l

def echoPositional (m : Metered) (i : ℕ) : Option Metered := do
  let (g, l) ← hostArgGet running m.guest (asI32 i) (valPtr b) 512
  let fuel ← spend m.fuel (costs.positional l)
  let g ← hostPrint (puts g "  - ") (valPtr b) (orZero l)
  some ⟨puts g "\n", fuel⟩

def echoNamed (m : Metered) (i : ℕ) : Option Metered := do
  let (g, kl) ← hostArgMapKey running m.guest (asI32 i) (keyPtr b) 256
  let (g, vl) ← hostArgMapGet running g (keyPtr b) (orZero kl) (valPtr b) 512
  let fuel ← spend m.fuel (costs.named kl vl)
  let g ← hostPrint (puts g "  ") (keyPtr b) (orZero kl)
  let g ← hostPrint (puts g " = ") (valPtr b) (orZero vl)
  some ⟨puts g "\n", fuel⟩

/-- `for (int i = 0; i < n; i++)` -/
def loop (body : Metered → ℕ → Option Metered) (n : Int32) (m : Metered) : Option Metered :=
  (List.range n.toNatClampNeg).foldlM body m

/-- `_start` of `args-echo.c`: what it hands to `host::print`, one piece after the other. -/
def echo (memory : LinearMemory) : Option (List Bytes) := do
  let fuel ← spend startFuel costs.enter
  let m ← loop (echoPositional costs b running) (asI32 running.data.argList.length)
    ⟨puts ⟨memory, []⟩ "args-echo: positional args:\n", fuel⟩
  let fuel ← spend m.fuel costs.between
  let m ← loop (echoNamed costs b running) (asI32 running.data.argMap.length)
    ⟨puts m.guest "args-echo: named args:\n", fuel⟩
  some m.guest.printed

end Program

/-! What is printed. -/

def positionalPieces (a : String) : List Bytes := [utf8 "  - ", written 512 a, utf8 "\n"]

/-- What is found under a key. -/
def valueUnder (argMap : List (String × String)) (key : Bytes) : Bytes :=
  match argMap.find? fun kv => kv.1 == fromUtf8Lossy key with
  | some (_, v) => written 512 v
  | none => []

/-- What `host::arg_map_get` answers for a key. -/
def answerUnder (argMap : List (String × String)) (key : Bytes) : Int32 :=
  match argMap.find? fun kv => kv.1 == fromUtf8Lossy key with
  | some (_, v) => asI32 (written 512 v).length
  | none => -1

/-- The instructions that the arguments take, all turns together. -/
def Costs.needed (costs : Costs) (argList : List String) (argMap : List (String × String)) : ℕ :=
  costs.enter + (argList.map fun a => costs.positional (asI32 (written 512 a).length)).sum +
    costs.between + (argMap.map fun kv => costs.named (asI32 (written 256 kv.1).length)
      (answerUnder argMap (written 256 kv.1))).sum

/-- The value is looked up under what the buffer has of the key. -/
def namedPieces (argMap : List (String × String)) (kv : String × String) : List Bytes :=
  [utf8 "  ", written 256 kv.1, utf8 " = ", valueUnder argMap (written 256 kv.1), utf8 "\n"]

def listing (argList : List String) (argMap : List (String × String)) : List Bytes :=
  utf8 "args-echo: positional args:\n" :: (argList.flatMap positionalPieces ++
    utf8 "args-echo: named args:\n" :: argMap.flatMap (namedPieces argMap))

/-- The arguments as they were given. -/
def asGiven (argList : List String) (argMap : List (String × String)) : List Bytes :=
  utf8 "args-echo: positional args:\n" ::
    (argList.flatMap (fun a => [utf8 "  - ", utf8 a, utf8 "\n"]) ++
      utf8 "args-echo: named args:\n" :: argMap.flatMap fun kv =>
        [utf8 "  ", utf8 kv.1, utf8 " = ", utf8 kv.2, utf8 "\n"])

/-! Buffers. -/

theorem asUsize_ofNat {k : ℕ} (h : k < 2 ^ 31) : asUsize (Int32.ofNat k) = k := by
  rw [asUsize_eq, Int32.toInt_ofNat_of_lt h, if_pos (by omega), Int.toNat_natCast]

theorem orZero_ofNat {k : ℕ} (h : k < 2 ^ 31) : orZero (Int32.ofNat k) = Int32.ofNat k := by
  have hnonneg : ¬ Int32.ofNat k < 0 := by
    rw [Int32.lt_iff_toInt_lt, Int32.toInt_ofNat_of_lt h]
    exact Int.not_lt.mpr (Int.natCast_nonneg k)
  rw [orZero, if_neg hnonneg]

theorem getIndex_asI32 {α : Type} (xs : List α) {i : ℕ} (h : i < 2 ^ 31) :
    getIndex xs (asI32 i) = xs[i]? := by
  have hnonneg : ¬ asI32 i < 0 := by
    rw [asI32, Int32.lt_iff_toInt_lt, Int32.toInt_ofNat_of_lt h]
    exact Int.not_lt.mpr (Int.natCast_nonneg i)
  rw [getIndex, if_neg hnonneg, asI32, Int32.toNatClampNeg_ofNat_of_lt h]

theorem get_copyFromSlice (m : LinearMemory) {start : ℕ} {src : Bytes}
    (hfits : start + src.length ≤ m.bytes.length) :
    (m.copyFromSlice start src).get start (start + src.length) = some src := by
  have hsize : (m.copyFromSlice start src).bytes.length = m.bytes.length := List.length_mapIdx
  rw [get_add _ (by rw [hsize]; exact hfits), Option.some.injEq]
  apply List.ext_getElem?
  intro i
  by_cases hi : i < src.length
  · rw [List.getElem?_take_of_lt hi, List.getElem?_drop, getElem?_copyFromSlice m _ _ _ hfits,
      if_pos (by omega), Nat.add_sub_cancel_left]
  · rw [List.getElem?_eq_none (by rw [List.length_take]; omega),
      List.getElem?_eq_none (by omega)]

theorem get_copyFromSlice_apart (m : LinearMemory) {start start' k : ℕ} {src : Bytes}
    (hfits : start + src.length ≤ m.bytes.length)
    (hapart : start' + k ≤ start ∨ start + src.length ≤ start') :
    (m.copyFromSlice start src).get start' (start' + k) = m.get start' (start' + k) := by
  have hsize : (m.copyFromSlice start src).bytes.length = m.bytes.length := List.length_mapIdx
  by_cases hbeyond : start' + k ≤ m.bytes.length
  · rw [get_add _ (by rw [hsize]; exact hbeyond), get_add _ hbeyond, Option.some.injEq]
    apply List.ext_getElem?
    intro i
    by_cases hi : i < k
    · rw [List.getElem?_take_of_lt hi, List.getElem?_take_of_lt hi, List.getElem?_drop,
        List.getElem?_drop, getElem?_copyFromSlice m _ _ _ hfits, if_neg (by omega)]
    · rw [List.getElem?_eq_none (by rw [List.length_take]; omega),
        List.getElem?_eq_none (by rw [List.length_take]; omega)]
  · rw [get_beyond _ (.inl (by omega)), get_beyond _ (.inl (by omega))]

/-- What a call leaves: the buffer has the front of the text, everything else is as it
was. -/
structure CopiedOut (g g' : Guest) (start room : ℕ) (src : Bytes) : Prop where
  printed : g'.printed = g.printed
  size : g'.memory.bytes.length = g.memory.bytes.length
  buffer : g'.memory.get start (start + (src.take room).length) = some (src.take room)
  apart : ∀ start' k, start' + k ≤ start ∨ start + room ≤ start' →
    g'.memory.get start' (start' + k) = g.memory.get start' (start' + k)

theorem copyOut_eq (g : Guest) (start room : ℕ) (hstart : start < 2 ^ 31) (hroom : room < 2 ^ 31)
    (hfits : start + room ≤ g.memory.bytes.length) (src : Bytes) :
    ∃ g', copyOut g (Int32.ofNat start) (Int32.ofNat room) src =
        some (g', Int32.ofNat (src.take room).length) ∧ CopiedOut g g' start room src := by
  have hlength : (src.take room).length = min src.length room := by
    rw [List.length_take, Nat.min_comm]
  have hmin : min src.length room ≤ room := Nat.min_le_right _ _
  have htake : src.take (min src.length room) = src.take room := by
    rw [Nat.min_comm, ← List.take_take, List.take_length]
  have hbeyond : start + min src.length room ≤ g.memory.bytes.length := by omega
  have hget := get_add g.memory hbeyond
  have hresult : copyOut g (Int32.ofNat start) (Int32.ofNat room) src =
      some ({ g with memory := g.memory.copyFromSlice start (src.take room) },
        Int32.ofNat (min src.length room)) := by
    have hsum : start + min src.length room < 2 ^ 64 := by omega
    rw [copyOut, GuestMemory.writeGuestBytes]
    simp only [Int32.toNatClampNeg_ofNat_of_lt hstart, Int32.toNatClampNeg_ofNat_of_lt hroom,
      addUsize_of_lt hsum, hget, Option.map_some, htake]
  rw [hlength]
  refine ⟨_, hresult, ?_⟩
  exact {
    printed := rfl
    size := List.length_mapIdx
    buffer := get_copyFromSlice g.memory (by omega)
    apart := by
      intro start' k hapart
      apply get_copyFromSlice_apart
      · omega
      · omega }

theorem hostPrint_eq {g : Guest} {start k : ℕ} {data : Bytes} (hstart : start < 2 ^ 31)
    (hk : k < 2 ^ 31) (hdata : g.memory.get start (start + k) = some data) :
    hostPrint g (Int32.ofNat start) (Int32.ofNat k) = some (g.say data) := by
  have hsum : start + k < 2 ^ 64 := by omega
  rw [hostPrint, print]
  simp only [asUsize_ofNat hstart, asUsize_ofNat hk, addUsize_of_lt hsum, hdata, Option.map_some]

theorem readGuestBytes_eq {m : LinearMemory} {start k : ℕ} {data : Bytes} (hstart : start < 2 ^ 31)
    (hk : k < 2 ^ 31) (hdata : m.get start (start + k) = some data) :
    (readGuestBytes m (Int32.ofNat start) (Int32.ofNat k)).result = some data := by
  have hsum : start + k < 2 ^ 64 := by omega
  rw [readGuestBytes]
  simp only [Int32.toNatClampNeg_ofNat_of_lt hstart, Int32.toNatClampNeg_ofNat_of_lt hk,
    addUsize_of_lt hsum, hdata]

theorem get_empty {m : LinearMemory} {start : ℕ} (h : start ≤ m.bytes.length) :
    m.get start (start + 0) = some [] := by
  rw [get_add m h, List.take_zero]

/-! The loops. -/

theorem spend_eq {fuel instructions : ℕ} (h : instructions < fuel) :
    spend fuel instructions = some (fuel - instructions) := if_pos h

/-- A round that takes `cost` of the fuel and prints its pieces. -/
structure Round (m m' : Metered) (cost : ℕ) (pieces : List Bytes) : Prop where
  size : m'.guest.memory.bytes.length = m.guest.memory.bytes.length
  fuel : m'.fuel = m.fuel - cost
  printed : m'.guest.printed = m.guest.printed ++ pieces

/-- A loop that has the fuel for all of its rounds prints what they print. -/
theorem loop_eq (body : Metered → ℕ → Option Metered) (cost : ℕ → ℕ) (pieces : ℕ → List Bytes)
    {size n : ℕ} (hn : n < 2 ^ 31)
    (hbody : ∀ i < n, ∀ m : Metered, m.guest.memory.bytes.length = size → cost i < m.fuel →
      ∃ m', body m i = some m' ∧ Round m m' (cost i) (pieces i))
    {m : Metered} (hm : m.guest.memory.bytes.length = size)
    (hfuel : ((List.range n).map cost).sum < m.fuel) :
    ∃ m', loop body (asI32 n) m = some m' ∧
      Round m m' ((List.range n).map cost).sum ((List.range n).flatMap pieces) := by
  rw [loop, asI32, Int32.toNatClampNeg_ofNat_of_lt hn]
  clear hn
  induction n with
  | zero => exact ⟨m, rfl, rfl, rfl, (List.append_nil _).symm⟩
  | succ n ih =>
    have hsum : ((List.range (n + 1)).map cost).sum = ((List.range n).map cost).sum + cost n := by
      rw [List.range_succ, List.map_append, List.sum_append]
      simp
    rw [hsum] at hfuel ⊢
    obtain ⟨m₁, hrun, hfront⟩ := ih (fun i hi => hbody i (by omega)) (by omega)
    have hleft := hfront.fuel
    obtain ⟨m₂, hround, hlast⟩ := hbody n (by omega) m₁ (hfront.size.trans hm) (by omega)
    refine ⟨m₂, ?_, hlast.size.trans hfront.size, ?_, ?_⟩
    · rw [List.range_succ, List.foldlM_append, hrun, Option.bind_eq_bind, Option.bind_some,
        List.foldlM_cons, hround]
      rfl
    · rw [hlast.fuel, hleft, Nat.sub_sub]
    · rw [hlast.printed, hfront.printed, List.range_succ, List.flatMap_append,
        List.flatMap_singleton, List.append_assoc]

/-- Going through the indices of a list is going through the list. -/
theorem map_range_getElem? {α : Type} (xs : List α) :
    (List.range xs.length).map (fun i => xs[i]?) = xs.map some := by
  apply List.ext_getElem?
  intro i
  by_cases hi : i < xs.length
  · rw [List.getElem?_map, List.getElem?_range hi, List.getElem?_map, Option.map_some,
      List.getElem?_eq_getElem hi, Option.map_some]
  · rw [List.getElem?_eq_none (by simpa using hi), List.getElem?_eq_none (by simpa using hi)]

theorem flatMap_range_getElem? {α β : Type} (xs : List α) (f : α → List β) :
    ((List.range xs.length).flatMap fun i => (xs[i]?.map f).getD []) = xs.flatMap f := by
  have hmap := congrArg (List.flatMap fun x : Option α => (x.map f).getD []) (map_range_getElem? xs)
  simpa only [List.flatMap_map, Option.map_some, Option.getD_some] using hmap

theorem sum_range_getElem? {α : Type} (xs : List α) (f : α → ℕ) :
    ((List.range xs.length).map fun i => (xs[i]?.map f).getD 0).sum = (xs.map f).sum := by
  have hmap := congrArg (List.map fun x : Option α => (x.map f).getD 0) (map_range_getElem? xs)
  rw [List.map_map, List.map_map] at hmap
  exact congrArg List.sum hmap

theorem written_ofNat (room : ℕ) (h : room < 2 ^ 31) (s : String) :
    written (Int32.ofNat room) s = (utf8 s).take room := by
  rw [written, Int32.toNatClampNeg_ofNat_of_lt h, MessagesRead.writeGuestBytes, Nat.min_comm,
    ← List.take_take, List.take_length]

section Rounds

variable (costs : Costs) {size : ℕ} (b : Buffers size) (running : RunningProgram)

theorem echoPositional_eq {i : ℕ} (hi : i < 2 ^ 31) {a : String}
    (ha : running.data.argList[i]? = some a) {m : Metered}
    (hm : m.guest.memory.bytes.length = size)
    (hfuel : costs.positional (asI32 (written 512 a).length) < m.fuel) :
    ∃ m', echoPositional costs b running m i = some m' ∧
      Round m m' (costs.positional (asI32 (written 512 a).length)) (positionalPieces a) := by
  have hval := b.val_end
  have hsize := b.size_le
  obtain ⟨g₁, hcopy, hcopied⟩ := copyOut_eq m.guest b.valbuf 512 (by omega) (by omega) (by omega)
    (utf8 a)
  have hlength : ((utf8 a).take 512).length < 2 ^ 31 := by
    rw [List.length_take]
    omega
  have hget : hostArgGet running m.guest (asI32 i) (valPtr b) 512 =
      some (g₁, Int32.ofNat ((utf8 a).take 512).length) := by
    rw [hostArgGet, getIndex_asI32 _ hi, ha]
    exact hcopy
  have hwritten : written 512 a = (utf8 a).take 512 := written_ofNat 512 (by omega) a
  rw [hwritten, asI32] at hfuel ⊢
  have hspend := spend_eq hfuel
  have hprint : hostPrint (puts g₁ "  - ") (valPtr b) (Int32.ofNat ((utf8 a).take 512).length) =
      some ((puts g₁ "  - ").say ((utf8 a).take 512)) :=
    hostPrint_eq (by omega) hlength hcopied.buffer
  refine ⟨⟨puts ((puts g₁ "  - ").say ((utf8 a).take 512)) "\n", _⟩, ?_, hcopied.size, rfl, ?_⟩
  · simp only [echoPositional, hget, Option.bind_eq_bind, Option.bind_some, hspend,
      orZero_ofNat hlength, hprint]
  · simp [puts, Guest.say, hcopied.printed, positionalPieces, hwritten]

/-- The value that is looked up under the bytes of a buffer, copied to the other. -/
theorem hostArgMapGet_eq {g : Guest} {key : Bytes} (hg : g.memory.bytes.length = size)
    (hkey : key.length ≤ 256) (hbuffer : g.memory.get b.keybuf (b.keybuf + key.length) = some key) :
    ∃ g', hostArgMapGet running g (keyPtr b) (Int32.ofNat key.length) (valPtr b) 512 =
        some (g', answerUnder running.data.argMap key) ∧ g'.printed = g.printed ∧
      g'.memory.bytes.length = size ∧
      g'.memory.get b.keybuf (b.keybuf + key.length) = some key ∧
      ∃ n < 2 ^ 31, orZero (answerUnder running.data.argMap key) = Int32.ofNat n ∧
        g'.memory.get b.valbuf (b.valbuf + n) = some (valueUnder running.data.argMap key) := by
  have hval := b.val_end
  have hkeyEnd := b.key_end
  have hapart := b.apart
  have hsize := b.size_le
  have hread : (readGuestBytes g.memory (keyPtr b) (Int32.ofNat key.length)).result = some key :=
    readGuestBytes_eq (by omega) (by omega) hbuffer
  cases hfind : running.data.argMap.find? (fun kv => kv.1 == fromUtf8Lossy key) with
  | none =>
    have hanswer : answerUnder running.data.argMap key = -1 := by rw [answerUnder, hfind]
    rw [hanswer]
    refine ⟨g, ?_, rfl, hg, hbuffer, 0, by omega, rfl, ?_⟩
    · simp only [hostArgMapGet, hread, Option.bind_eq_bind, Option.bind_some, hfind]
    · rw [get_empty (by omega), valueUnder, hfind]
  | some kv =>
    obtain ⟨g₁, hcopy, hcopied⟩ := copyOut_eq g b.valbuf 512 (by omega) (by omega) (by omega)
      (utf8 kv.2)
    have hlength : ((utf8 kv.2).take 512).length < 2 ^ 31 := by
      rw [List.length_take]
      omega
    have hwritten : written 512 kv.2 = (utf8 kv.2).take 512 := written_ofNat 512 (by omega) kv.2
    have hanswer : answerUnder running.data.argMap key =
        Int32.ofNat ((utf8 kv.2).take 512).length := by
      simp only [answerUnder, hfind, hwritten, asI32]
    rw [hanswer]
    refine ⟨g₁, ?_, hcopied.printed, hcopied.size.trans hg, ?_, _, hlength,
      orZero_ofNat hlength, ?_⟩
    · simp only [hostArgMapGet, hread, Option.bind_eq_bind, Option.bind_some, hfind]
      exact hcopy
    · rw [hcopied.apart _ _ (by omega)]
      exact hbuffer
    · simp only [valueUnder, hfind, hwritten]
      exact hcopied.buffer

theorem echoNamed_eq {i : ℕ} (hi : i < 2 ^ 31) {kv : String × String}
    (hkv : running.data.argMap[i]? = some kv) {m : Metered}
    (hm : m.guest.memory.bytes.length = size)
    (hfuel : costs.named (asI32 (written 256 kv.1).length)
      (answerUnder running.data.argMap (written 256 kv.1)) < m.fuel) :
    ∃ m', echoNamed costs b running m i = some m' ∧
      Round m m' (costs.named (asI32 (written 256 kv.1).length)
        (answerUnder running.data.argMap (written 256 kv.1)))
        (namedPieces running.data.argMap kv) := by
  have hval := b.val_end
  have hkeyEnd := b.key_end
  have hsize := b.size_le
  have hwritten : written 256 kv.1 = (utf8 kv.1).take 256 := written_ofNat 256 (by omega) kv.1
  rw [namedPieces, hwritten, asI32]
  rw [hwritten, asI32] at hfuel
  obtain ⟨g₁, hcopy, hcopied⟩ := copyOut_eq m.guest b.keybuf 256 (by omega) (by omega) (by omega)
    (utf8 kv.1)
  have hlength : ((utf8 kv.1).take 256).length ≤ 256 := List.length_take_le _ _
  have hcopiedKey := hcopied.buffer
  generalize (utf8 kv.1).take 256 = key at *
  have hsmall : key.length < 2 ^ 31 := by omega
  have hkey : hostArgMapKey running m.guest (asI32 i) (keyPtr b) 256 =
      some (g₁, Int32.ofNat key.length) := by
    rw [hostArgMapKey, getIndex_asI32 _ hi, hkv]
    exact hcopy
  obtain ⟨g₂, hget, hprinted, hsize₂, hbuffer, n, hn, hl, hvalue⟩ :=
    hostArgMapGet_eq b running (hcopied.size.trans hm) hlength hcopiedKey
  have hspend := spend_eq hfuel
  have hprintKey : hostPrint (puts g₂ "  ") (keyPtr b) (Int32.ofNat key.length) =
      some ((puts g₂ "  ").say key) := hostPrint_eq (by omega) hsmall hbuffer
  let g₃ := puts ((puts g₂ "  ").say key) " = "
  have hprintValue : hostPrint g₃ (valPtr b) (Int32.ofNat n) =
      some (g₃.say (valueUnder running.data.argMap key)) := hostPrint_eq (by omega) hn hvalue
  refine ⟨⟨puts (g₃.say (valueUnder running.data.argMap key)) "\n", _⟩, ?_,
    hsize₂.trans hm.symm, rfl, ?_⟩
  · simp only [echoNamed, hkey, Option.bind_eq_bind, Option.bind_some, orZero_ofNat hsmall, hget,
      hspend, hprintKey, hl]
    rw [hprintValue, Option.bind_some]
  · simp [g₃, puts, Guest.say, hprinted, hcopied.printed]

/-- In a memory of the size the linker has counted on, and with fuel for its arguments,
the program does not trap, and prints the listing of its arguments. -/
theorem echo_eq {memory : LinearMemory} (hmemory : memory.bytes.length = size)
    (hlist : running.data.argList.length < 2 ^ 31) (hmap : running.data.argMap.length < 2 ^ 31)
    (hfuel : costs.needed running.data.argList running.data.argMap < startFuel) :
    echo costs b running memory = some (listing running.data.argList running.data.argMap) := by
  let positionalCost (a : String) := costs.positional (asI32 (written 512 a).length)
  let namedCost (kv : String × String) := costs.named (asI32 (written 256 kv.1).length)
    (answerUnder running.data.argMap (written 256 kv.1))
  have hneeded : costs.enter + (running.data.argList.map positionalCost).sum + costs.between +
      (running.data.argMap.map namedCost).sum < startFuel := hfuel
  have hpositional : ∀ i < running.data.argList.length, ∀ m : Metered,
      m.guest.memory.bytes.length = size →
      (running.data.argList[i]?.map positionalCost).getD 0 < m.fuel →
      ∃ m', echoPositional costs b running m i = some m' ∧
        Round m m' ((running.data.argList[i]?.map positionalCost).getD 0)
          ((running.data.argList[i]?.map positionalPieces).getD []) := by
    intro i hi m hm hcost
    have ha := List.getElem?_eq_getElem hi
    rw [ha] at hcost ⊢
    exact echoPositional_eq costs b running (by omega) ha hm hcost
  have hnamed : ∀ i < running.data.argMap.length, ∀ m : Metered,
      m.guest.memory.bytes.length = size →
      (running.data.argMap[i]?.map namedCost).getD 0 < m.fuel →
      ∃ m', echoNamed costs b running m i = some m' ∧
        Round m m' ((running.data.argMap[i]?.map namedCost).getD 0)
          ((running.data.argMap[i]?.map (namedPieces running.data.argMap)).getD []) := by
    intro i hi m hm hcost
    have hkv := List.getElem?_eq_getElem hi
    rw [hkv] at hcost ⊢
    exact echoNamed_eq costs b running (by omega) hkv hm hcost
  have henter : spend startFuel costs.enter = some (startFuel - costs.enter) :=
    spend_eq (by omega)
  let m₀ : Metered := ⟨puts ⟨memory, []⟩ "args-echo: positional args:\n",
    startFuel - costs.enter⟩
  have hpositionals := sum_range_getElem? running.data.argList positionalCost
  have hfuel₀ : m₀.fuel = startFuel - costs.enter := rfl
  obtain ⟨m₁, hfirst, hround₁⟩ := loop_eq _ _ _ hlist hpositional (m := m₀) hmemory (by omega)
  have hfuel₁ := hround₁.fuel
  have hbetween : spend m₁.fuel costs.between = some (m₁.fuel - costs.between) :=
    spend_eq (by omega)
  let m₂ : Metered := ⟨puts m₁.guest "args-echo: named args:\n", m₁.fuel - costs.between⟩
  have hnameds := sum_range_getElem? running.data.argMap namedCost
  have hfuel₂ : m₂.fuel = m₁.fuel - costs.between := rfl
  obtain ⟨m₃, hsecond, hround₃⟩ := loop_eq _ _ _ hmap hnamed (m := m₂)
    (hround₁.size.trans hmemory) (by omega)
  have hprinted₁ := hround₁.printed
  have hprinted₃ := hround₃.printed
  rw [flatMap_range_getElem?] at hprinted₁ hprinted₃
  simp only [echo, henter, hbetween, Option.bind_eq_bind, Option.bind_some, hfirst, hsecond, m₀, m₂]
  rw [hprinted₃]
  simp [m₂, m₀, puts, Guest.say, hprinted₁, listing]

end Rounds

/-! The request. -/

theorem bounded_identityData : Codec.Bounded identityData :=
  .record (.pair Codec.bounded_string (.pair (Codec.bounded_little _ _ _ _ _)
    (.pair (Codec.bounded_little _ _ _ _ _) (.pair Codec.bounded_string
      (.pair Codec.bounded_bytes Codec.bounded_bytes))))) _

theorem bounded_programData : Codec.Bounded programData := by
  have hsigned : Codec.Bounded signedFields :=
    .pair bounded_identityData
      (.pair Codec.bounded_string (.pair Codec.bounded_bytes Codec.bounded_bytes))
  have hcontext : Codec.Bounded contextFields :=
    .pair (Codec.bounded_fixed 16) (.pair (Codec.bounded_little _ _ _ _ _)
      (.list Codec.bounded_bytes Codec.wide_bytes))
  have harguments : Codec.Bounded argumentFields :=
    .pair (.list Codec.bounded_string Codec.wide_string)
      (.list (.pair Codec.bounded_string Codec.bounded_string) (.pair Codec.wide_string _))
  exact .record (.pair hsigned (.pair hcontext harguments)) _

/-- A message that goes into a buffer is one that can be read. -/
theorem fits_of_length {message : NetworkMessage} (h : (toVec message).length < 2 ^ 64) :
    Fits message := by
  have hstdout : Codec.Bounded stdoutFields :=
    .pair (Codec.bounded_little _ _ _ _ _) Codec.bounded_bytes
  have hreturn : Codec.Bounded returnFields :=
    .pair (Codec.bounded_little _ _ _ _ _) (.pair (Codec.bounded_fixed 16) Codec.bounded_bytes)
  have hfabric : Codec.Bounded fabricFields :=
    .pair bounded_identityData (.pair Codec.bounded_bytes
      (.pair Codec.bounded_bytes Codec.bounded_bytes))
  cases message with
  | executeRequest p =>
    rw [toVec, List.length_append] at h
    exact bounded_programData p (by omega)
  | basicInsecureProgramStdout fromPid stdoutData =>
    rw [toVec, List.length_append] at h
    exact hstdout (fromPid, stdoutData) (by omega)
  | basicInsecureProgramExit fromPid exitCode => exact ⟨trivial, trivial⟩
  | basicReturnMap fromPid requestUuid cborData =>
    rw [toVec, List.length_append] at h
    exact hreturn (fromPid, requestUuid, cborData) (by omega)
  | basicReturnList fromPid requestUuid cborData =>
    rw [toVec, List.length_append] at h
    exact hreturn (fromPid, requestUuid, cborData) (by omega)
  | signedFabricMessage source id cborData signature =>
    rw [toVec, List.length_append] at h
    exact hfabric (source, id, cborData, signature) (by omega)

/-- A request has no more arguments of a kind than bytes. -/
theorem length_args_le (p : ProgramData) :
    p.argList.length ≤ (toVec (.executeRequest p)).length ∧
      p.argMap.length ≤ (toVec (.executeRequest p)).length := by
  have hlist := Codec.length_le_list Codec.wide_string p.argList
  have hmap := Codec.length_le_list (Codec.Wide.pair Codec.wide_string Codec.string) p.argMap
  have hwrite : toVec (.executeRequest p) = uvarint 0 ++ (signedFields.write (signedPart p) ++
      (contextFields.write (contextPart p) ++ ((Codec.list Codec.string).write p.argList ++
        (Codec.list (Codec.pair Codec.string Codec.string)).write p.argMap))) := rfl
  simp only [hwrite, List.length_append]
  omega

/-- A message that goes into the buffer of the receiver is read as it was sent. -/
theorem fromSlice_of_length {message : NetworkMessage}
    (h : (toVec message).length ≤ 64 * 1024) : fromSlice (toVec message) = some message :=
  fromSlice_toVec message (fits_of_length (by omega))

/-! As it was given. -/

/-- What the buffers do not change. -/
structure Echoed (argList : List String) (argMap : List (String × String)) : Prop where
  positional : ∀ a ∈ argList, (utf8 a).length ≤ 512
  keys : ∀ kv ∈ argMap, (utf8 kv.1).length ≤ 256
  values : ∀ kv ∈ argMap, ∀ first, argMap.find? (fun other => other.1 == kv.1) = some first →
    (utf8 first.2).take 512 = utf8 kv.2

theorem flatMap_eq_iff {α β : Type} {f g : α → List β} (hlength : ∀ x, (f x).length = (g x).length)
    (xs : List α) : xs.flatMap f = xs.flatMap g ↔ ∀ x ∈ xs, f x = g x := by
  induction xs with
  | nil => simp
  | cons x xs ih =>
    rw [List.flatMap_cons, List.flatMap_cons, List.forall_mem_cons, ← ih]
    constructor
    · intro h
      exact List.append_inj h (hlength x)
    · rintro ⟨hx, hxs⟩
      rw [hx, hxs]

/-- A key that fits is looked up as it is, and the first value under it is found. -/
theorem namedPieces_eq_iff {argMap : List (String × String)} {kv : String × String}
    (hkv : kv ∈ argMap) :
    namedPieces argMap kv = [utf8 "  ", utf8 kv.1, utf8 " = ", utf8 kv.2, utf8 "\n"] ↔
      (utf8 kv.1).length ≤ 256 ∧
        ∀ first, argMap.find? (fun other => other.1 == kv.1) = some first →
          (utf8 first.2).take 512 = utf8 kv.2 := by
  have hkey : written 256 kv.1 = utf8 kv.1 ↔ (utf8 kv.1).length ≤ 256 := by
    rw [← List.take_eq_self_iff]
    exact iff_of_eq (congrArg (· = utf8 kv.1) (written_ofNat 256 (by omega) kv.1))
  have hfound : ∃ first, argMap.find? (fun other => other.1 == kv.1) = some first := by
    rw [← Option.isSome_iff_exists, List.find?_isSome]
    exact ⟨kv, hkv, beq_self_eq_true _⟩
  obtain ⟨first, hfirst⟩ := hfound
  have hvalue : written 256 kv.1 = utf8 kv.1 →
      valueUnder argMap (written 256 kv.1) = (utf8 first.2).take 512 := by
    intro heq
    rw [heq, valueUnder, PathDisplay.fromUtf8Lossy_utf8, hfirst]
    exact written_ofNat 512 (by omega) first.2
  simp only [namedPieces, List.cons.injEq, true_and, and_true, hfirst, Option.some.injEq,
    forall_eq', ← hkey]
  constructor
  · rintro ⟨hfront, hback⟩
    exact ⟨hfront, (hvalue hfront).symm.trans hback⟩
  · rintro ⟨hfront, hback⟩
    exact ⟨hfront, (hvalue hfront).trans hback⟩

theorem listing_eq_asGiven_iff (argList : List String) (argMap : List (String × String)) :
    listing argList argMap = asGiven argList argMap ↔ Echoed argList argMap := by
  have hlist : (argList.flatMap positionalPieces).length =
      (argList.flatMap fun a => [utf8 "  - ", utf8 a, utf8 "\n"]).length := by
    simp [List.length_flatMap, positionalPieces]
  have hpositional := flatMap_eq_iff (f := positionalPieces)
    (g := fun a => [utf8 "  - ", utf8 a, utf8 "\n"]) (fun _ => rfl) argList
  have hnamed := flatMap_eq_iff (f := namedPieces argMap)
    (g := fun kv => [utf8 "  ", utf8 kv.1, utf8 " = ", utf8 kv.2, utf8 "\n"]) (fun _ => rfl) argMap
  have hpiece : ∀ a, positionalPieces a = [utf8 "  - ", utf8 a, utf8 "\n"] ↔
      (utf8 a).length ≤ 512 := by
    intro a
    have hwritten : written 512 a = (utf8 a).take 512 := written_ofNat 512 (by omega) a
    simp [positionalPieces, hwritten]
  simp only [hpiece] at hpositional
  rw [listing, asGiven, List.cons_inj_right]
  constructor
  · intro h
    obtain ⟨hfirst, hsecond⟩ := List.append_inj h hlist
    have heach := hnamed.mp (List.cons_inj_right _ |>.mp hsecond)
    exact {
      positional := hpositional.mp hfirst
      keys := fun kv hkv => ((namedPieces_eq_iff hkv).mp (heach kv hkv)).1
      values := fun kv hkv => ((namedPieces_eq_iff hkv).mp (heach kv hkv)).2 }
  · intro h
    rw [hpositional.mpr h.positional, hnamed.mpr fun kv hkv =>
      (namedPieces_eq_iff hkv).mpr ⟨h.keys kv hkv, h.values kv hkv⟩]

/-- What a node prints for the arguments of a command line that leave it fuel, and when
that is what was given: nothing on the way changes an argument but the two buffers, and
of two arguments with one name the first speaks for both. -/
theorem echo_of_command_line (costs : Costs) (c : Identity.Crypto) (compiles : Bytes → Bool)
    (e : Executor) (addr : SocketAddr) (now : UInt64) (source : Identity.IdentityData)
    (fileName : Option String) (wasmBytes : Bytes) (argList entries : List String) {size : ℕ}
    (b : Buffers size)
    {memory : LinearMemory} (hmemory : memory.bytes.length = size) {running : RunningProgram}
    (hreceived : (toVec (.executeRequest (IdentityValidity.runRequest source fileName wasmBytes
      argList (parseArgMap entries)))).length ≤ 64 * 1024)
    (hstarted : startedBy c compiles e (.datagram addr now (fromSlice (toVec (.executeRequest
      (IdentityValidity.runRequest source fileName wasmBytes argList
        (parseArgMap entries)))))) = some running)
    (hfuel : costs.needed argList (parseArgMap entries) < startFuel) :
    echo costs b running memory = some (listing argList (parseArgMap entries)) ∧
      (listing argList (parseArgMap entries) = asGiven argList (parseArgMap entries) ↔
        Echoed argList (parseArgMap entries)) := by
  refine ⟨?_, listing_eq_asGiven_iff _ _⟩
  rw [fromSlice_of_length hreceived] at hstarted
  simp only [startedBy] at hstarted
  split_ifs at hstarted
  obtain rfl := Option.some.inj hstarted
  obtain ⟨hlist, hmap⟩ := length_args_le (IdentityValidity.runRequest source fileName wasmBytes
    argList (parseArgMap entries))
  have hbound : 64 * 1024 < 2 ^ 31 := by decide
  exact echo_eq costs b _ hmemory (Nat.lt_of_le_of_lt (Nat.le_trans hlist hreceived) hbound)
    (Nat.lt_of_le_of_lt (Nat.le_trans hmap hreceived) hbound) hfuel

/-- The buffers at the front of a memory that has no room for more. -/
def frontBuffers : Buffers 768 where
  valbuf := 0
  keybuf := 512
  val_end := by omega
  key_end := by omega
  apart := by omega
  size_le := by omega

def frontMemory : LinearMemory where
  bytes := List.replicate 768 0
  size_le := by
    rw [List.length_replicate]
    omega

/-- More than `zig cc -Os` makes of any part of the program. -/
def amplyCosts : Costs := ⟨1000, fun _ => 1000, 1000, fun _ _ => 1000⟩

/-- `--arg mode=a=b --arg mode=c`: the second is printed with the value of the first. -/
def modeTwice : List String := ["mode=a=b", "mode=c"]

def modeProgram : ProgramData :=
  IdentityValidity.runRequest (Identity.idealIdentity "alice" Identity.aliceKey 1760000000)
    (some "args-echo.wasm") [] ["now"] (parseArgMap modeTwice)

theorem echo_of_command_line_mode :
    echo amplyCosts frontBuffers (ForwardedProgram.running modeProgram) frontMemory =
      some (listing ["now"] [("mode", "a=b"), ("mode", "c")]) ∧
    listing ["now"] [("mode", "a=b"), ("mode", "c")] ≠
      asGiven ["now"] [("mode", "a=b"), ("mode", "c")] := by
  have hreceived : (toVec (.executeRequest modeProgram)).length ≤ 64 * 1024 := by
    decide +kernel
  have hmemory : frontMemory.bytes.length = 768 := List.length_replicate
  have hstarted : startedBy (Identity.idealCrypto (aliceIssued [1])) (fun _ => true) Executor.new
      (.datagram (.v4 1 2240) 1 (fromSlice (toVec (.executeRequest modeProgram)))) =
        some ⟨modeProgram, false, Identity.aliceKey, "alice"⟩ := by
    rw [fromSlice_of_length hreceived]
    decide
  have hparsed : parseArgMap modeTwice = [("mode", "a=b"), ("mode", "c")] := by decide
  have hfuel : amplyCosts.needed ["now"] (parseArgMap modeTwice) < startFuel := by
    rw [hparsed]
    decide
  obtain ⟨hecho, hiff⟩ := echo_of_command_line _ _ _ _ _ _ _ _ _ _ _ frontBuffers hmemory
    hreceived hstarted hfuel
  rw [hparsed] at hecho hiff
  refine ⟨hecho, fun h => ?_⟩
  have hvalue := (hiff.mp h).values ("mode", "c") (by simp) ("mode", "a=b") rfl
  exact absurd hvalue (by decide)

end Weverywhere.ArgsEcho
