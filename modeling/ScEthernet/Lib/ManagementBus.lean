import Mathlib.Data.List.GetD
import Mathlib.Tactic.Common

/-! A serial management bus of two wires, a clock and a data line that a resistor pulls up. The devices listen at
the rising edges: 32 ones or more, a start, a direction, an address, a register, two bit times to turn the line
around and 16 bits, each field with its highest bit first. A device that is read changes the line behind the
falling edges. What its registers do is a parameter. -/
namespace ScEthernet.Lib.ManagementBus

def msbFirst {w : Nat} (x : BitVec w) : Nat → List Bool
  | 0 => []
  | n + 1 => x.getLsbD n :: msbFirst x n

def shiftIn {w : Nat} (x : BitVec w) (bits : List Bool) : BitVec w :=
  bits.foldl (fun x bit => x <<< 1 ||| (BitVec.ofBool bit).setWidth w) x

structure Bank (ρ : Type) where
  read : ρ → BitVec 5 → BitVec 16 × ρ
  write : ρ → BitVec 5 → BitVec 16 → ρ

inductive Phase where
  | preamble (ones : Nat)
  /- The bits behind the first one of the start. -/
  | header (bits : List Bool)
  | passing (left : Nat)
  | writing (reg : BitVec 5) (bits : List Bool)
  | reading (bits : List (Option Bool))

structure Device (ρ : Type) where
  address : BitVec 5
  registers : ρ
  phase : Phase
  out : Option Bool

structure Bus (ρ : Type) where
  clock : Bool
  /- What the station drives. -/
  station : Option Bool
  devices : List (Device ρ)
  /- History: two have driven the line at once. -/
  clash : Bool

section
variable {ρ : Type} (bank : Bank ρ)

def Device.fall (d : Device ρ) : Device ρ :=
  { d with out := match d.phase with
      | .reading (bit :: _) => bit
      | _ => none }

def Device.opened (d : Device ρ) (bits : List Bool) : Device ρ :=
  let reg : BitVec 5 := shiftIn 0 (bits.drop 8)
  let own := shiftIn 0 ((bits.drop 3).take 5) = d.address
  match bits.take 3 with
  | [true, true, false] =>
    if own then
      let (x, registers) := bank.read d.registers reg
      { d with registers := registers, phase := .reading (none :: some false :: (msbFirst x 16).map some) }
    else { d with phase := .passing 18 }
  | [true, false, true] => { d with phase := if own then .writing reg [] else .passing 18 }
  | _ => { d with phase := .preamble 0 }

def Device.rise (line : Bool) (d : Device ρ) : Device ρ :=
  match d.phase with
  | .preamble ones =>
    { d with phase := if line then .preamble (ones + 1) else if 32 ≤ ones then .header [] else .preamble 0 }
  | .header bits =>
    if bits.length < 12 then { d with phase := .header (bits ++ [line]) } else d.opened bank (bits ++ [line])
  | .passing left => { d with phase := if left ≤ 1 then .preamble 0 else .passing (left - 1) }
  | .writing reg bits =>
    if bits.length < 17 then { d with phase := .writing reg (bits ++ [line]) }
    else { d with registers := bank.write d.registers reg (shiftIn 0 ((bits ++ [line]).drop 2)), phase := .preamble 0 }
  | .reading bits => { d with phase := if bits.length ≤ 1 then .preamble 0 else .reading bits.tail }

def Bus.drivers (b : Bus ρ) : List Bool := b.station.toList ++ b.devices.filterMap Device.out
def Bus.level (b : Bus ρ) : Bool := b.drivers.headD true
def Bus.settle (b : Bus ρ) : Bus ρ := { b with clash := b.clash || decide (1 < b.drivers.length) }

def Bus.setClock (high : Bool) (b : Bus ρ) : Bus ρ :=
  if high = b.clock then b
  else if high then Bus.settle { b with clock := true, devices := b.devices.map (Device.rise bank b.level) }
  else Bus.settle { b with clock := false, devices := b.devices.map Device.fall }

def Bus.drive (bit : Bool) (b : Bus ρ) : Bus ρ := Bus.settle { b with station := some bit }
def Bus.release (b : Bus ρ) : Bus ρ := Bus.settle { b with station := none }

/- One bit time of the station. -/

def Bus.send (bit : Bool) (b : Bus ρ) : Bus ρ := ((b.setClock bank false).drive bit).setClock bank true

def Bus.sample (b : Bus ρ) : Bool × Bus ρ :=
  let b := ((b.setClock bank false).setClock bank true).release
  (b.level, b)

def Bus.sends (b : Bus ρ) (bits : List Bool) : Bus ρ := bits.foldl (fun b bit => b.send bank bit) b

def Bus.samples : Nat → Bus ρ → List Bool × Bus ρ
  | 0, b => ([], b)
  | n + 1, b =>
    let (bit, b) := b.sample bank
    let (bits, b) := Bus.samples n b
    (bit :: bits, b)

/-! The registers without the bus. -/

def store (phy reg : BitVec 5) (x : BitVec 16) (d : BitVec 5 × ρ) : BitVec 5 × ρ :=
  if d.1 = phy then (d.1, bank.write d.2 reg x) else d

def load (phy reg : BitVec 5) (ds : List (BitVec 5 × ρ)) : BitVec 16 × List (BitVec 5 × ρ) :=
  ((ds.find? (fun d => d.1 = phy)).elim 0xFFFF#16 (fun d => (bank.read d.2 reg).1),
    ds.map (fun d => if d.1 = phy then (d.1, (bank.read d.2 reg).2) else d))

def Device.contents (d : Device ρ) : BitVec 5 × ρ := (d.address, d.registers)
def Bus.contents (b : Bus ρ) : List (BitVec 5 × ρ) := b.devices.map Device.contents

/- The ones, the start, the direction and where. -/
def header (reading : Bool) (phy reg : BitVec 5) : List Bool :=
  [true, reading, !reading] ++ (msbFirst phy 5 ++ msbFirst reg 5)
def request (reading : Bool) (phy reg : BitVec 5) : List Bool :=
  List.replicate 32 true ++ false :: header reading phy reg

structure Bus.Resting (b : Bus ρ) : Prop where
  clock : b.clock = true
  single : b.drivers.length ≤ 1
  clear : b.clash = false
  waiting : ∀ d ∈ b.devices, ∃ ones, d.phase = .preamble ones
  distinct : (b.contents.map Prod.fst).Nodup

/-! What a device makes of the bits it hears. -/

def Device.hear (d : Device ρ) (bits : List Bool) : Device ρ := bits.foldl (fun d bit => d.fall.rise bank bit) d

def Device.Listens (d : Device ρ) : Prop := ∀ bits, d.phase ≠ .reading bits

inductive Device.Quiet : Device ρ → List Bool → Prop
  | nil (d) : Quiet d []
  | cons {d bit bits} (listens : d.Listens) (rest : Quiet (d.fall.rise bank bit) bits) : Quiet d (bit :: bits)

end

section bits
variable {w : Nat}

theorem msbFirstLength (x : BitVec w) (n : Nat) : (msbFirst x n).length = n := by
  induction n with
  | zero => rfl
  | succ n ih => simp [msbFirst, ih]

theorem shiftInAt (bits : List Bool) (x : BitVec w) (i : Nat) : (shiftIn x bits).getLsbD i =
    (decide (i < w) && if i < bits.length then bits.reverse.getD i false else x.getLsbD (i - bits.length)) := by
  induction bits generalizing x with
  | nil =>
    by_cases inside : i < w
    · simp [shiftIn, inside]
    · simp [shiftIn, inside, BitVec.getLsbD_of_ge x i (by omega)]
  | cons bit bits ih =>
    have next : shiftIn x (bit :: bits) = shiftIn (x <<< 1 ||| (BitVec.ofBool bit).setWidth w) bits := rfl
    rw [next, ih, List.reverse_cons, List.length_cons]
    by_cases inside : i < w
    · rcases Nat.lt_trichotomy i bits.length with low | same | high
      · rw [if_pos low, if_pos (by omega), List.getD_append _ _ _ _ (by simpa using low)]
      · subst same
        rw [if_neg (by omega), if_pos (by omega), List.getD_append_right _ _ _ _ (by simp)]
        simp [inside]
        omega
      · rw [if_neg (by omega), if_neg (by omega)]
        simp [inside, show i - bits.length ≠ 0 by omega, Nat.sub_sub]
        omega
    · simp [inside]

theorem msbFirstAt (x : BitVec w) {n i : Nat} (inside : i < n) : (msbFirst x n).reverse.getD i false = x.getLsbD i := by
  induction n with
  | zero => cases inside
  | succ n ih =>
    have length : (msbFirst x n).reverse.length = n := by rw [List.length_reverse, msbFirstLength]
    rw [msbFirst, List.reverse_cons]
    by_cases last : i = n
    · subst last
      rw [List.getD_append_right _ _ _ _ (by omega), length, Nat.sub_self]
      rfl
    · rw [List.getD_append _ _ _ _ (by omega)]
      exact ih (by omega)

theorem shiftInWord {v : Nat} (x : BitVec v) (y : BitVec w) : shiftIn y (msbFirst x v) = y <<< v ||| x.setWidth w := by
  refine BitVec.eq_of_getLsbD_eq fun i inside => ?_
  rw [shiftInAt, msbFirstLength, BitVec.getLsbD_or, BitVec.getLsbD_shiftLeft, BitVec.getLsbD_setWidth]
  by_cases low : i < v
  · rw [if_pos low, msbFirstAt x low]
    simp [inside, low]
  · rw [if_neg low]
    simp [inside, low, BitVec.getLsbD_of_ge x i (by omega)]

theorem shiftInSame (x : BitVec w) : shiftIn (0 : BitVec w) (msbFirst x w) = x := by
  rw [shiftInWord]
  simp

end bits

section devices
variable {ρ : Type} (bank : Bank ρ) {d : Device ρ}

theorem hearAppend (xs ys : List Bool) : d.hear bank (xs ++ ys) = (d.hear bank xs).hear bank ys := List.foldl_append

theorem quietAppend {xs ys : List Bool} (first : d.Quiet bank xs) (rest : (d.hear bank xs).Quiet bank ys) :
    d.Quiet bank (xs ++ ys) := by
  induction first with
  | nil => exact rest
  | cons listens _ ih => exact .cons listens (ih rest)

theorem fallSilent (listens : d.Listens) : d.fall = { d with out := none } := by
  cases phase : d.phase with
  | reading bits => exact absurd phase (listens bits)
  | _ => simp [Device.fall, phase]

theorem heardOnes {m : Nat} (phase : d.phase = .preamble m) (n : Nat) : d.Quiet bank (List.replicate (n + 1) true) ∧
    d.hear bank (List.replicate (n + 1) true) = { d with phase := .preamble (m + n + 1), out := none } := by
  have listens : d.Listens := fun bits same => by rw [phase] at same; cases same
  have next : d.fall.rise bank true = { d with phase := .preamble (m + 1), out := none } := by
    rw [fallSilent listens]
    simp [Device.rise, phase]
  induction n generalizing d m with
  | zero => exact ⟨.cons listens (.nil _), next⟩
  | succ n ih =>
    obtain ⟨quiet, heard⟩ := ih (d := d.fall.rise bank true) (m := m + 1) (by rw [next])
      (fun bits same => by rw [next] at same; cases same) (by rw [next]; rfl)
    refine ⟨.cons listens quiet, heard.trans ?_⟩
    rw [next, show m + 1 + n + 1 = m + (n + 1) + 1 by omega]

theorem openedPhase (phase : Phase) (bits : List Bool) :
    ({ d with phase := phase } : Device ρ).opened bank bits = d.opened bank bits := by
  unfold Device.opened
  split <;> rfl

theorem heardHeader {bits pre : List Bool} (phase : d.phase = .header pre) (some : bits ≠ [])
    (length : pre.length + bits.length = 13) :
    d.Quiet bank bits ∧ d.hear bank bits = ({ d with out := none } : Device ρ).opened bank (pre ++ bits) := by
  induction bits generalizing d pre with
  | nil => exact absurd rfl some
  | cons bit bits ih =>
    have listens : d.Listens := fun bits same => by rw [phase] at same; cases same
    rw [List.length_cons] at length
    cases bits with
    | nil =>
      rw [List.length_nil] at length
      refine ⟨.cons listens (.nil _), ?_⟩
      simp only [Device.hear, List.foldl_cons, List.foldl_nil, fallSilent listens, Device.rise, phase]
      rw [if_neg (by omega)]
    | cons bit' bits =>
      have next : d.fall.rise bank bit = { d with phase := .header (pre ++ [bit]), out := none } := by
        simp only [fallSilent listens, Device.rise, phase]
        rw [if_pos (by rw [List.length_cons] at length; omega)]
      have later : (d.fall.rise bank bit).phase = .header (pre ++ [bit]) := by rw [next]
      obtain ⟨quiet, heard⟩ := ih later (by simp) (by rw [List.length_append, List.length_singleton]; omega)
      refine ⟨.cons listens quiet, heard.trans ?_⟩
      rw [next, List.append_assoc]
      exact openedPhase bank _ _

theorem heardStart {m : Nat} {hdr : List Bool} (phase : d.phase = .preamble m) (length : hdr.length = 13) :
    d.Quiet bank (List.replicate 32 true ++ false :: hdr) ∧
      d.hear bank (List.replicate 32 true ++ false :: hdr) = ({ d with out := none } : Device ρ).opened bank hdr := by
  obtain ⟨quiet, heard⟩ : d.Quiet bank (List.replicate 32 true) ∧ _ := heardOnes bank phase 31
  have next : (d.hear bank (List.replicate 32 true)).fall.rise bank false = { d with phase := .header [], out := none } := by
    rw [heard]
    simp [Device.fall, Device.rise]
  have start : ((d.hear bank (List.replicate 32 true)).fall.rise bank false).phase = .header [] := by rw [next]
  have some : hdr ≠ [] := by rintro rfl; cases length
  obtain ⟨quietHdr, heardHdr⟩ := heardHeader bank start some (by simpa using length)
  refine ⟨quietAppend bank quiet (.cons ?_ quietHdr), ?_⟩
  · intro bits same
    rw [heard] at same
    cases same
  · rw [hearAppend bank]
    refine heardHdr.trans ?_
    rw [next, List.nil_append]
    exact openedPhase bank _ _

theorem heardWriting {reg : BitVec 5} {bits pre : List Bool} (phase : d.phase = .writing reg pre) (some : bits ≠ [])
    (length : pre.length + bits.length = 18) : d.Quiet bank bits ∧ d.hear bank bits = { d with
      out := none, registers := bank.write d.registers reg (shiftIn 0 ((pre ++ bits).drop 2)), phase := .preamble 0 } := by
  induction bits generalizing d pre with
  | nil => exact absurd rfl some
  | cons bit bits ih =>
    have listens : d.Listens := fun bits same => by rw [phase] at same; cases same
    rw [List.length_cons] at length
    cases bits with
    | nil =>
      rw [List.length_nil] at length
      refine ⟨.cons listens (.nil _), ?_⟩
      simp only [Device.hear, List.foldl_cons, List.foldl_nil, fallSilent listens, Device.rise, phase]
      rw [if_neg (by omega)]
    | cons bit' bits =>
      have next : d.fall.rise bank bit = { d with phase := .writing reg (pre ++ [bit]), out := none } := by
        simp only [fallSilent listens, Device.rise, phase]
        rw [if_pos (by rw [List.length_cons] at length; omega)]
      have later : (d.fall.rise bank bit).phase = .writing reg (pre ++ [bit]) := by rw [next]
      obtain ⟨quiet, heard⟩ := ih later (by simp) (by rw [List.length_append, List.length_singleton]; omega)
      refine ⟨.cons listens quiet, heard.trans ?_⟩
      rw [next, List.append_assoc]
      rfl

theorem heardPassing {n : Nat} {bits : List Bool} (phase : d.phase = .passing n) (some : bits ≠ []) (inside : bits.length ≤ n) :
    d.Quiet bank bits ∧ d.hear bank bits =
      { d with out := none, phase := if bits.length = n then .preamble 0 else .passing (n - bits.length) } := by
  induction bits generalizing d n with
  | nil => exact absurd rfl some
  | cons bit bits ih =>
    have listens : d.Listens := fun bits same => by rw [phase] at same; cases same
    rw [List.length_cons] at inside ⊢
    have next : d.fall.rise bank bit = { d with phase := if n ≤ 1 then .preamble 0 else .passing (n - 1), out := none } := by
      simp only [fallSilent listens, Device.rise, phase]
    cases bits with
    | nil =>
      refine ⟨.cons listens (.nil _), next.trans ?_⟩
      by_cases last : n = 1
      · subst last; rfl
      · rw [List.length_nil] at inside ⊢
        rw [if_neg (by omega), if_neg (by omega)]
    | cons bit' bits =>
      have more : ¬ n ≤ 1 := by rw [List.length_cons] at inside; omega
      rw [if_neg more] at next
      obtain ⟨quiet, heard⟩ := ih (d := d.fall.rise bank bit) (n := n - 1) (by rw [next]) (by simp) (by omega)
      refine ⟨.cons listens quiet, heard.trans ?_⟩
      rw [next, show n - 1 - (bit' :: bits).length = n - ((bit' :: bits).length + 1) by omega]
      by_cases last : (bit' :: bits).length = n - 1
      · rw [if_pos last, if_pos (by omega)]
      · rw [if_neg last, if_neg (by omega)]

end devices

section bus
variable {ρ : Type} (bank : Bank ρ) {b : Bus ρ}

theorem openedOut (bits : List Bool) (d : Device ρ) : (d.opened bank bits).out = d.out := by
  simp only [Device.opened]
  split
  · split <;> rfl
  · rfl
  · rfl

theorem riseOut (line : Bool) (d : Device ρ) : (d.rise bank line).out = d.out := by
  unfold Device.rise
  split
  · rfl
  · split
    · rfl
    · exact openedOut bank _ d
  · rfl
  · split <;> rfl
  · rfl

theorem risenDrivers (line : Bool) (ds : List (Device ρ)) :
    (ds.map (Device.rise bank line)).filterMap Device.out = ds.filterMap Device.out := by
  induction ds with
  | nil => rfl
  | cons d ds ih => rw [List.map_cons, List.filterMap_cons, List.filterMap_cons, riseOut, ih]

theorem silentDrivers {ds : List (Device ρ)} (quiet : ∀ d ∈ ds, d.Listens) : (ds.map Device.fall).filterMap Device.out = [] := by
  induction ds with
  | nil => rfl
  | cons d ds ih =>
    rw [List.map_cons, List.filterMap_cons, fallSilent (quiet d List.mem_cons_self)]
    exact ih fun d' member => quiet d' (List.mem_cons_of_mem d member)

theorem settled (single : b.drivers.length ≤ 1) : b.settle = b := by
  rw [Bus.settle, decide_eq_false (by omega), Bool.or_false]

theorem clockFalls (clock : b.clock = true) : b.setClock bank false =
    Bus.settle { b with clock := false, devices := b.devices.map Device.fall } := by
  rw [Bus.setClock, clock, if_neg (by decide), if_neg (by decide)]

theorem clockRises (clock : b.clock = false) : b.setClock bank true =
    Bus.settle { b with clock := true, devices := b.devices.map (Device.rise bank b.level) } := by
  rw [Bus.setClock, clock, if_neg (by decide), if_pos rfl]

theorem sent {bit : Bool} (clock : b.clock = true) (quiet : ∀ d ∈ b.devices, d.Listens) :
    b.send bank bit = { b with station := some bit, devices := b.devices.map fun d => d.fall.rise bank bit } := by
  have silent := silentDrivers quiet
  have first : b.setClock bank false = { b with clock := false, devices := b.devices.map Device.fall } := by
    refine (clockFalls bank clock).trans (settled ?_)
    rw [Bus.drivers, silent, List.append_nil]
    cases b.station <;> simp
  have driven : (b.setClock bank false).drive bit =
      { b with clock := false, station := some bit, devices := b.devices.map Device.fall } := by
    rw [first]
    refine settled ?_
    rw [Bus.drivers, silent]
    exact Nat.le_refl 1
  rw [Bus.send, driven, clockRises bank rfl, settled]
  · rw [Bus.level, Bus.drivers, silent, List.map_map, clock]
    rfl
  · rw [Bus.drivers, risenDrivers, silent]
    exact Nat.le_refl 1

theorem sentAll {bits : List Bool} (clock : b.clock = true) (quiet : ∀ d ∈ b.devices, d.Quiet bank bits) :
    b.sends bank bits = { b with station := bits.getLast?.or b.station, devices := b.devices.map fun d => d.hear bank bits } := by
  induction bits generalizing b with
  | nil => simp [Bus.sends, Device.hear]
  | cons bit bits ih =>
    have first : b.send bank bit = _ := sent bank clock fun d member => by cases quiet d member; assumption
    have later : ∀ d ∈ (b.send bank bit).devices, d.Quiet bank bits := by
      rw [first]
      intro d member
      obtain ⟨d, inside, rfl⟩ := List.mem_map.1 member
      cases quiet d inside
      assumption
    have next : b.sends bank (bit :: bits) = (b.send bank bit).sends bank bits := rfl
    rw [next, ih (by rw [first]; exact clock) later, first]
    simp only [List.map_map]
    refine congrArg (fun s => ({ b with station := s, devices := _ } : Bus ρ)) ?_
    cases bits with
    | nil => rfl
    | cons bit' bits => rw [List.getLast?_cons_cons, List.getLast?_cons]; rfl

structure Bus.Reads (b : Bus ρ) (bits : List (Option Bool)) : Prop where
  clock : b.clock = true
  station : b.station = none ∨ bits.head? = some none
  devices : ∃ before speaker after, b.devices = before ++ Option.toList speaker ++ after ∧
    (∀ d ∈ before ++ after, d.phase = .passing bits.length) ∧ (∀ d ∈ speaker, d.phase = .reading bits) ∧
    (speaker = none → ∀ bit ∈ bits, bit = none)

theorem passingSample {d : Device ρ} {n : Nat} (phase : d.phase = .passing (n + 1)) (line : Bool) : d.fall.rise bank line =
    { d with out := none, phase := if n = 0 then .preamble 0 else .passing n } := by
  have heard := (heardPassing bank phase (List.cons_ne_nil line []) (Nat.succ_le_succ (Nat.zero_le n))).2
  refine Eq.trans heard ?_
  cases n <;> rfl

theorem readingSample {d : Device ρ} {bit : Option Bool} {bits : List (Option Bool)} (phase : d.phase = .reading (bit :: bits))
    (line : Bool) :
    d.fall.rise bank line = { d with out := bit, phase := if bits = [] then .preamble 0 else .reading bits } := by
  cases bits <;> simp [Device.fall, Device.rise, phase]

theorem sampled {bit : Option Bool} {bits : List (Option Bool)} (reads : b.Reads (bit :: bits)) :
    (b.sample bank).1 = bit.getD true ∧ (b.sample bank).2.contents = b.contents ∧ (b.sample bank).2.clash = b.clash ∧
      (b.sample bank).2.drivers.length ≤ 1 ∧ (b.sample bank).2.clock = true ∧
      if bits = [] then ∀ d ∈ (b.sample bank).2.devices, d.phase = .preamble 0 else (b.sample bank).2.Reads bits := by
  obtain ⟨before, speaker, after, devices, passing, speaks, silent⟩ := reads.devices
  obtain ⟨line, next⟩ : ∃ line, line = (b.setClock bank false).level := ⟨_, rfl⟩
  have others : ∀ d ∈ before ++ after, d.fall.rise bank line = { d with
      out := none, phase := if bits.length = 0 then .preamble 0 else .passing bits.length } := fun d member =>
    passingSample bank (passing d member) line
  have own : ∀ d ∈ speaker, d.fall.rise bank line = { d with
      out := bit, phase := if bits = [] then .preamble 0 else .reading bits } :=
    fun d member => readingSample bank (speaks d member) line
  have split : (b.devices.map Device.fall).map (Device.rise bank line) =
      before.map (fun d => d.fall.rise bank line) ++ (speaker.map (fun d => d.fall.rise bank line)).toList ++
        after.map (fun d => d.fall.rise bank line) := by
    rw [devices, List.map_map, List.map_append, List.map_append]
    cases speaker <;> rfl
  have muted : ∀ ds : List (Device ρ), (∀ d ∈ ds, d ∈ before ++ after) →
      (ds.map fun d => d.fall.rise bank line).filterMap Device.out = [] := by
    intro ds inside
    refine List.filterMap_eq_nil_iff.2 fun d member => ?_
    obtain ⟨d, here, rfl⟩ := List.mem_map.1 member
    rw [others d (inside d here)]
  have outs : ((b.devices.map Device.fall).map (Device.rise bank line)).filterMap Device.out = bit.toList := by
    rw [split, List.filterMap_append, List.filterMap_append, muted before fun d => List.mem_append_left after,
      muted after fun d => List.mem_append_right before, List.nil_append, List.append_nil]
    cases speaker with
    | none => rw [silent rfl bit List.mem_cons_self]; rfl
    | some d => cases bit <;> simp [own d rfl]
  have fallen : (b.devices.map Device.fall).filterMap Device.out = bit.toList := by rw [← outs, risenDrivers]
  have few : (b.station.toList ++ bit.toList).length ≤ 1 := by
    rcases reads.station with off | none
    · cases bit <;> simp [off]
    · cases none
      cases b.station <;> simp
  have first : b.setClock bank false = { b with clock := false, devices := b.devices.map Device.fall } :=
    (clockFalls bank reads.clock).trans (settled (by rw [Bus.drivers, fallen]; exact few))
  have second : (b.setClock bank false).setClock bank true = { b with
      clock := true, devices := (b.devices.map Device.fall).map (Device.rise bank line) } := by
    rw [clockRises bank (by rw [first]), settled]
    · rw [← next, first]
    · rw [first, Bus.drivers, risenDrivers, fallen]
      exact few
  have third : (b.sample bank).2 = { b with
      clock := true, station := none, devices := (b.devices.map Device.fall).map (Device.rise bank line) } := by
    refine (congrArg Bus.release second).trans (settled ?_)
    rw [Bus.drivers, outs]
    cases bit <;> simp
  have level : (b.sample bank).1 = bit.getD true := by
    refine (congrArg Bus.level third).trans ?_
    rw [Bus.level, Bus.drivers, outs]
    cases bit <;> rfl
  have parts : ∀ d ∈ b.devices, d ∈ before ++ after ∨ d ∈ speaker := by
    rw [devices]
    intro d member
    simp only [List.mem_append, Option.mem_toList] at member ⊢
    tauto
  have kept : ∀ d ∈ b.devices, (d.fall.rise bank line).contents = d.contents := by
    intro d member
    rcases parts d member with other | here
    · rw [others d other]; rfl
    · rw [own d here]; rfl
  refine ⟨level, ?_, by rw [third], ?_, by rw [third], ?_⟩
  · rw [Bus.contents, third, Bus.contents, List.map_map, List.map_map]
    exact List.map_congr_left kept
  · rw [third, Bus.drivers, outs]
    cases bit <;> simp
  · split
    · next last =>
      rw [third, List.map_map]
      intro d member
      obtain ⟨d, here, rfl⟩ := List.mem_map.1 member
      rcases parts d here with other | here
      · rw [Function.comp_apply, others d other, last]; rfl
      · rw [Function.comp_apply, own d here, if_pos last]
    · next more =>
      have nonzero : bits.length ≠ 0 := fun zero => more (List.length_eq_zero_iff.1 zero)
      refine ⟨by rw [third], .inl (by rw [third]), _, _, _, by rw [third]; exact split, ?_, ?_, ?_⟩
      · rw [← List.map_append]
        intro d member
        obtain ⟨d, here, rfl⟩ := List.mem_map.1 member
        rw [others d here, if_neg nonzero]
      · intro d member
        obtain ⟨d, here, rfl⟩ := Option.map_eq_some_iff.1 member
        rw [own d here, if_neg more]
      · intro nobody bit' member
        exact silent (Option.map_eq_none_iff.1 nobody) bit' (List.mem_cons_of_mem bit member)

theorem sampledAll {bits : List (Option Bool)} (some : bits ≠ []) (reads : b.Reads bits) :
    (b.samples bank bits.length).1 = bits.map (fun bit => bit.getD true) ∧
      (b.samples bank bits.length).2.contents = b.contents ∧ (b.samples bank bits.length).2.clash = b.clash ∧
      (b.samples bank bits.length).2.drivers.length ≤ 1 ∧ (b.samples bank bits.length).2.clock = true ∧
      ∀ d ∈ (b.samples bank bits.length).2.devices, d.phase = .preamble 0 := by
  induction bits generalizing b with
  | nil => exact absurd rfl some
  | cons bit bits ih =>
    obtain ⟨level, contents, clash, few, clock, rest⟩ := sampled bank reads
    cases bits with
    | nil => exact ⟨by simp [Bus.samples, level], contents, clash, few, clock, rest⟩
    | cons bit' bits =>
      obtain ⟨levels, contents', clash', few', clock', rest'⟩ := ih (List.cons_ne_nil _ _) rest
      refine ⟨?_, contents'.trans contents, clash'.trans clash, few', clock', rest'⟩
      rw [List.map_cons, ← level, ← levels]
      rfl

theorem samplesAdd (m n : Nat) : b.samples bank (m + n) =
    ((b.samples bank m).1 ++ ((b.samples bank m).2.samples bank n).1, ((b.samples bank m).2.samples bank n).2) := by
  induction m generalizing b with
  | zero => rw [Nat.zero_add]; rfl
  | succ m ih =>
    rw [Nat.succ_add]
    simp only [Bus.samples, ih, List.cons_append]

theorem headerLength (reading : Bool) (phy reg : BitVec 5) : (header reading phy reg).length = 13 := by
  simp [header, msbFirstLength]

theorem openedRequest (d : Device ρ) (reading : Bool) (phy reg : BitVec 5) :
    d.opened bank (header reading phy reg) =
      if phy = d.address then
        if reading then { d with
          registers := (bank.read d.registers reg).2
          phase := .reading (none :: some false :: (msbFirst (bank.read d.registers reg).1 16).map some) }
        else { d with phase := .writing reg [] }
      else { d with phase := .passing 18 } := by
  have who : ((header reading phy reg).drop 3).take 5 = msbFirst phy 5 := List.take_left' (msbFirstLength phy 5)
  have which : (header reading phy reg).drop 8 = msbFirst reg 5 := List.drop_left' (msbFirstLength phy 5)
  have way : (header reading phy reg).take 3 = [true, reading, !reading] := List.take_left' rfl
  simp only [Device.opened, who, which, way, shiftInSame]
  cases reading with
  | true => rfl
  | false =>
    by_cases own : phy = d.address
    · simp [own]
    · simp [own]

theorem heardRequest {d : Device ρ} {m : Nat} (phase : d.phase = .preamble m) (reading : Bool) (phy reg : BitVec 5) :
    d.Quiet bank (request reading phy reg) ∧ d.hear bank (request reading phy reg) =
      if phy = d.address then
        if reading then { d with
          out := none
          registers := (bank.read d.registers reg).2
          phase := .reading (none :: some false :: (msbFirst (bank.read d.registers reg).1 16).map some) }
        else { d with out := none, phase := .writing reg [] }
      else { d with out := none, phase := .passing 18 } := by
  obtain ⟨quiet, heard⟩ := heardStart bank phase (headerLength reading phy reg)
  exact ⟨quiet, heard.trans (openedRequest bank _ reading phy reg)⟩

theorem heardWrite {d : Device ρ} {m : Nat} (phase : d.phase = .preamble m) (phy reg : BitVec 5) (x : BitVec 16) :
    d.Quiet bank (request false phy reg ++ true :: false :: msbFirst x 16) ∧
      d.hear bank (request false phy reg ++ true :: false :: msbFirst x 16) = { d with
        out := none, phase := .preamble 0
        registers := if phy = d.address then bank.write d.registers reg x else d.registers } := by
  obtain ⟨quiet, heard⟩ := heardRequest bank phase false phy reg
  have length : (true :: false :: msbFirst x 16).length = 18 := by
    rw [List.length_cons, List.length_cons, msbFirstLength]
  rw [hearAppend bank]
  by_cases own : phy = d.address
  · rw [if_pos own, if_neg Bool.false_ne_true] at heard
    have writing : (d.hear bank (request false phy reg)).phase = .writing reg [] := by rw [heard]
    have all : ([] : List Bool).length + (true :: false :: msbFirst x 16).length = 18 := by rw [length]; rfl
    obtain ⟨quiet', heard'⟩ := heardWriting bank writing (List.cons_ne_nil true _) all
    refine ⟨quietAppend bank quiet quiet', heard'.trans ?_⟩
    rw [heard, if_pos own, List.nil_append, List.drop_succ_cons, List.drop_succ_cons, List.drop_zero, shiftInSame]
  · rw [if_neg own] at heard
    have passing : (d.hear bank (request false phy reg)).phase = .passing 18 := by rw [heard]
    obtain ⟨quiet', heard'⟩ := heardPassing bank passing (List.cons_ne_nil true _) (Nat.le_of_eq length)
    refine ⟨quietAppend bank quiet quiet', heard'.trans ?_⟩
    rw [heard, if_neg own, length, if_pos rfl]

theorem storeAddress (phy reg : BitVec 5) (x : BitVec 16) (ds : List (BitVec 5 × ρ)) :
    (ds.map (store bank phy reg x)).map Prod.fst = ds.map Prod.fst := by
  rw [List.map_map]
  refine List.map_congr_left fun d _ => ?_
  rw [Function.comp_apply, store]
  split <;> rfl

theorem loadAddress (phy reg : BitVec 5) (ds : List (BitVec 5 × ρ)) :
    (load bank phy reg ds).2.map Prod.fst = ds.map Prod.fst := by
  rw [load, List.map_map]
  refine List.map_congr_left fun d _ => ?_
  rw [Function.comp_apply]
  split <;> rfl

theorem onlyStation (silent : ∀ d ∈ b.devices, d.out = none) : b.drivers = b.station.toList := by
  rw [Bus.drivers, List.filterMap_eq_nil_iff.2 silent, List.append_nil]

theorem writeAccess (resting : b.Resting) (phy reg : BitVec 5) (x : BitVec 16) :
    (b.sends bank (request false phy reg ++ true :: false :: msbFirst x 16)).Resting ∧
      (b.sends bank (request false phy reg ++ true :: false :: msbFirst x 16)).contents =
        b.contents.map (store bank phy reg x) := by
  have heard : ∀ d ∈ b.devices, _ := fun d member =>
    (resting.waiting d member).elim fun _ phase => heardWrite bank phase phy reg x
  have all := sentAll bank resting.clock fun d member => (heard d member).1
  have contents : (b.sends bank (request false phy reg ++ true :: false :: msbFirst x 16)).contents =
      b.contents.map (store bank phy reg x) := by
    rw [all, Bus.contents, Bus.contents, List.map_map, List.map_map]
    refine List.map_congr_left fun d member => ?_
    rw [Function.comp_apply, (heard d member).2]
    by_cases own : phy = d.address
    · simp [Device.contents, store, own]
    · simp [Device.contents, store, own, Ne.symm own]
  refine ⟨⟨by rw [all]; exact resting.clock, ?_, by rw [all]; exact resting.clear, ?_, ?_⟩, contents⟩
  · rw [onlyStation]
    · cases (b.sends bank (request false phy reg ++ true :: false :: msbFirst x 16)).station <;> simp
    · rw [all]
      intro d member
      obtain ⟨d, here, rfl⟩ := List.mem_map.1 member
      rw [(heard d here).2]
  · rw [all]
    intro d member
    obtain ⟨d, here, rfl⟩ := List.mem_map.1 member
    rw [(heard d here).2]
    exact ⟨0, rfl⟩
  · rw [contents, storeAddress]
    exact resting.distinct

/- Once the address is through, one device at most is about to speak. -/
theorem requestHeard (resting : b.Resting) (phy reg : BitVec 5) :
    (b.sends bank (request true phy reg)).contents = (load bank phy reg b.contents).2 ∧
      (b.sends bank (request true phy reg)).clash = false ∧ ∃ bits, bits.length = 18 ∧
      (bits.map fun bit => bit.getD true).drop 2 = msbFirst (load bank phy reg b.contents).1 16 ∧
      (b.sends bank (request true phy reg)).Reads bits := by
  have heard : ∀ d ∈ b.devices, _ := fun d member =>
    (resting.waiting d member).elim fun _ phase => heardRequest bank phase true phy reg
  have all := sentAll bank resting.clock fun d member => (heard d member).1
  refine ⟨?_, by rw [all]; exact resting.clear, ?_⟩
  · rw [all, Bus.contents, load, Bus.contents, List.map_map, List.map_map]
    refine List.map_congr_left fun d member => ?_
    rw [Function.comp_apply, (heard d member).2]
    by_cases own : phy = d.address
    · simp [Device.contents, own]
    · simp [Device.contents, own, Ne.symm own]
  cases who : b.contents.find? fun d => d.1 = phy with
  | none =>
    have nobody : ∀ d ∈ b.devices, phy ≠ d.address := by
      intro d member same
      have := List.find?_eq_none.1 who d.contents (List.mem_map_of_mem member)
      exact this (decide_eq_true same.symm)
    refine ⟨List.replicate 18 none, rfl, ?_, ⟨by rw [all]; exact resting.clock, .inr rfl,
      (b.sends bank (request true phy reg)).devices, none, [], by simp, ?_, by simp, by simp⟩⟩
    · have ones : ((List.replicate 18 none).map fun bit : Option Bool => bit.getD true).drop 2 = msbFirst 0xFFFF#16 16 := by
        decide
      rw [load, who]
      exact ones
    · rw [List.append_nil, all]
      intro d member
      obtain ⟨d, here, rfl⟩ := List.mem_map.1 member
      rw [(heard d here).2, if_neg (nobody d here)]
      rfl
  | some c =>
    obtain ⟨d, member, rfl⟩ := List.mem_map.1 (List.mem_of_find?_eq_some who)
    have own : phy = d.address := (of_decide_eq_true (List.find?_some (p := fun c : BitVec 5 × ρ => decide (c.1 = phy)) who)).symm
    obtain ⟨before, after, devices⟩ := List.append_of_mem member
    have others : ∀ d' ∈ before ++ after, phy ≠ d'.address := by
      have distinct := resting.distinct
      rw [Bus.contents, devices, List.map_map, List.map_append, List.map_cons, List.perm_middle.nodup_iff, List.nodup_cons,
        ← List.map_append] at distinct
      intro d' there same
      exact distinct.1 (List.mem_map.2 ⟨d', there, same.symm.trans own⟩)
    have split : (b.sends bank (request true phy reg)).devices =
        before.map (fun d => d.hear bank (request true phy reg)) ++
          Option.toList (some (d.hear bank (request true phy reg))) ++
            after.map (fun d => d.hear bank (request true phy reg)) := by
      rw [all, devices, List.map_append, List.map_cons, List.append_assoc]
      rfl
    refine ⟨none :: some false :: (msbFirst (bank.read d.registers reg).1 16).map some, ?_, ?_,
      ⟨by rw [all]; exact resting.clock, .inr rfl, _, _, _, split, ?_, ?_, by simp⟩⟩
    · simp [msbFirstLength]
    · have value : (load bank phy reg b.contents).1 = (bank.read d.registers reg).1 := by rw [load, who]; rfl
      rw [value, List.map_cons, List.map_cons, List.drop_succ_cons, List.drop_succ_cons, List.drop_zero, List.map_map]
      refine Eq.trans (List.map_congr_left fun bit _ => ?_) (List.map_id _)
      rfl
    · rw [← List.map_append]
      intro d' there
      obtain ⟨d', here, rfl⟩ := List.mem_map.1 there
      have inside : d' ∈ b.devices := by
        rw [devices]
        exact (List.mem_append.1 here).elim (List.mem_append_left (d :: after)) fun late =>
          List.mem_append_right before (List.mem_cons_of_mem d late)
      rw [(heard d' inside).2, if_neg (others d' here)]
      simp [msbFirstLength]
    · rintro _ ⟨⟩
      rw [(heard d member).2, if_pos own, if_pos rfl]

/- A whole access that reads: a register that is not there has all bits set. -/
theorem readAccess (resting : b.Resting) (phy reg : BitVec 5) :
    (((b.sends bank (request true phy reg)).samples bank 18).1.drop 2 = msbFirst (load bank phy reg b.contents).1 16) ∧
      ((b.sends bank (request true phy reg)).samples bank 18).2.Resting ∧
      ((b.sends bank (request true phy reg)).samples bank 18).2.contents = (load bank phy reg b.contents).2 := by
  obtain ⟨contents, clash, bits, length, value, reads⟩ := requestHeard bank resting phy reg
  have some : bits ≠ [] := by rintro rfl; cases length
  obtain ⟨levels, kept, clash', few, clock, waiting⟩ := sampledAll bank some reads
  rw [length] at levels kept clash' few clock waiting
  refine ⟨(congrArg (List.drop 2) levels).trans value, ⟨clock, few, clash'.trans clash, ?_, ?_⟩, kept.trans contents⟩
  · exact fun d member => ⟨0, waiting d member⟩
  · rw [kept, contents, loadAddress]
    exact resting.distinct

end bus

end ScEthernet.Lib.ManagementBus
