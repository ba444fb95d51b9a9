import Mathlib.Tactic.IntervalCases
import ScEthernet.Lib.ManagementBus
import ScEthernet.Lib.StateRefinement

/-! Register access of module_ethernet_smi over two one-bit ports, down to the levels of the wires. What the bus does
to the phys is what a direct access to their registers does. -/
namespace ScEthernet.Smi
open Lib.ManagementBus Lib.StateRefinement

def basicControlReg : BitVec 32 := 0
def basicStatusReg : BitVec 32 := 1
def phyId1Reg : BitVec 32 := 2
def phyId2Reg : BitVec 32 := 3
def autonegAdvertReg : BitVec 32 := 4

def basicControlLoopbackBit : Nat := 14
def basicControl100MbpsBit : Nat := 13
def basicControlAutonegEnBit : Nat := 12
def basicControlRestartAutonegBit : Nat := 9
def basicControlFullDuplexBit : Nat := 8
def basicStatusLinkBit : Nat := 2
def autonegAdvert100Bit : Nat := 8
def autonegAdvert10Bit : Nat := 6

abbrev smiRead : Bool := true
abbrev smiWrite : Bool := false

structure SmiInterface where
  phyAddress : BitVec 32

section
variable {ρ : Type} (bank : Bank ρ)

def smiInit : StateM (Bus ρ) Unit := modify (Bus.setClock bank true)

/- The loop of `smi_bit_shift`: `i` bits are left. -/
def smiBits (inning : Bool) : Nat → BitVec 32 → StateM (Bus ρ) (BitVec 32)
  | 0, data => pure data
  | i + 1, data => do
    modify (Bus.setClock bank false)
    if !inning then modify (Bus.drive (data.getLsbD i))
    modify (Bus.setClock bank true)
    if inning then
      modify Bus.release
      let line ← get
      smiBits inning i (data <<< 1 ||| (BitVec.ofBool line.level).setWidth 32)
    else smiBits inning i data

def smiBitShift (data : BitVec 32) (count : Nat) (inning : Bool) : StateM (Bus ρ) (BitVec 32) := do
  modify (Bus.setClock bank true)
  let data ← smiBits bank inning count data
  modify (Bus.setClock bank true)
  pure data

def smiReg (smi : SmiInterface) (reg val : BitVec 32) (inning : Bool) : StateM (Bus ρ) (BitVec 32) := do
  let _ ← smiBitShift bank 0xFFFFFFFF#32 32 smiWrite
  let _ ← smiBitShift bank ((5 + (BitVec.ofBool inning).setWidth 32) <<< 10 ||| smi.phyAddress <<< 5 ||| reg) 14 smiWrite
  let _ ← smiBitShift bank 2 2 inning
  smiBitShift bank val 16 inning

end

section
variable {σ : Type} (reg : BitVec 32 → BitVec 32 → Bool → StateM σ (BitVec 32))

def ethPhyId : StateM σ (BitVec 32) := do
  let lo ← reg phyId1Reg 0 smiRead
  let hi ← reg phyId2Reg 0 smiRead
  pure ((hi >>> 10) <<< 16 ||| lo)

def ethPhyConfig (eth100 : Bool) : StateM σ Unit := do
  let autoNegAdvertReg ← reg autonegAdvertReg 0 smiRead
  let autoNegAdvertReg := autoNegAdvertReg &&& 0xfc1f
  let autoNegAdvertReg :=
    autoNegAdvertReg ||| 1#32 <<< (if eth100 then autonegAdvert100Bit else autonegAdvert10Bit)
  let _ ← reg autonegAdvertReg autoNegAdvertReg smiWrite
  let basicControl ← reg basicControlReg 0 smiRead
  let basicControl := basicControl ||| 1#32 <<< basicControlAutonegEnBit
  let _ ← reg basicControlReg basicControl smiWrite
  let basicControl := basicControl ||| 1#32 <<< basicControlRestartAutonegBit
  let _ ← reg basicControlReg basicControl smiWrite

def ethPhyConfigNoauto (eth100 : Bool) : StateM σ Unit := do
  let basicControl ← reg basicControlReg 0 smiRead
  let basicControl := basicControl ||| 1#32 <<< basicControlFullDuplexBit
  let basicControl := basicControl &&& ~~~(1#32 <<< basicControlAutonegEnBit ||| 1#32 <<< basicControl100MbpsBit)
  let basicControl := if eth100 then basicControl ||| 1#32 <<< basicControl100MbpsBit else basicControl
  let _ ← reg basicControlReg basicControl smiWrite

def ethPhyLoopback (enable : Bool) : StateM σ Unit := do
  let controlReg ← reg basicControlReg 0 smiRead
  let controlReg := controlReg &&& ~~~(1#32 <<< basicControlAutonegEnBit ||| 1#32 <<< basicControlLoopbackBit)
  let controlReg := controlReg ||| 1#32 <<< (if enable then basicControlLoopbackBit else basicControlAutonegEnBit)
  let _ ← reg basicControlReg controlReg smiWrite

def smiCheckLinkState : StateM σ (BitVec 32) := do
  let status ← reg basicStatusReg 0 smiRead
  pure (status >>> basicStatusLinkBit &&& 1)

end

/- What the rest of the program asks for: `reg` is smi_reg itself. -/
inductive Call where
  | reg (reg : BitVec 5) (val : BitVec 32) (inning : Bool)
  | phyId
  | config (eth100 : Bool)
  | configNoauto (eth100 : Bool)
  | loopback (enable : Bool)
  | checkLinkState

section
variable {σ : Type} (reg : BitVec 32 → BitVec 32 → Bool → StateM σ (BitVec 32))

def silently (m : StateM σ Unit) : StateM σ (Option (BitVec 32)) := m >>= fun _ => pure none
def answering (m : StateM σ (BitVec 32)) : StateM σ (Option (BitVec 32)) := m >>= fun x => pure (some x)

def Call.run : Call → StateM σ (Option (BitVec 32))
  | .reg r val inning => answering (reg (r.setWidth 32) val inning)
  | .phyId => answering (ethPhyId reg)
  | .config eth100 => silently (ethPhyConfig reg eth100)
  | .configNoauto eth100 => silently (ethPhyConfigNoauto reg eth100)
  | .loopback enable => silently (ethPhyLoopback reg enable)
  | .checkLinkState => answering (smiCheckLinkState reg)

end

def session {σ : Type} (reg : BitVec 5 → BitVec 32 → BitVec 32 → Bool → StateM σ (BitVec 32)) :
    List (BitVec 5 × Call) → StateM σ (List (Option (BitVec 32))) := each fun call => call.2.run (reg call.1)

/- The access without a bus: `c` are the phys with their registers. -/
section
variable {ρ : Type} (bank : Bank ρ)

def registers (phy : BitVec 5) (reg : BitVec 32) (val : BitVec 32) (inning : Bool) :
    StateM (List (BitVec 5 × ρ)) (BitVec 32) := fun c =>
  if inning then
    (val <<< 16 ||| (load bank phy (reg.setWidth 5) c).1.setWidth 32, (load bank phy (reg.setWidth 5) c).2)
  else (val, c.map (store bank phy (reg.setWidth 5) (val.setWidth 16)))

def Alike {σ τ : Type} (R : σ → τ → Prop) (m : BitVec 32 → BitVec 32 → Bool → StateM σ (BitVec 32))
    (a : BitVec 32 → BitVec 32 → Bool → StateM τ (BitVec 32)) : Prop :=
  ∀ (r : BitVec 5) val inning, Refines R (m (r.setWidth 32) val inning) (a (r.setWidth 32) val inning)

/- As the ports are found: nothing drives the data line, the clock is anywhere. -/
structure Fresh (b : Bus ρ) : Prop where
  station : b.station = none
  clear : b.clash = false
  waiting : ∀ d ∈ b.devices, d.out = none ∧ ∃ ones, d.phase = .preamble ones
  distinct : (b.contents.map Prod.fst).Nodup

def idle (ds : List (BitVec 5 × ρ)) : Bus ρ where
  clock := false
  station := none
  devices := ds.map fun d => ⟨d.1, d.2, .preamble 0, none⟩
  clash := false

def Carries (b : Bus ρ) (c : List (BitVec 5 × ρ)) : Prop := b.Resting ∧ b.contents = c

variable {b : Bus ρ}

theorem bitsOut (data : BitVec 32) (i : Nat) : smiBits bank smiWrite i data b = (data, b.sends bank (msbFirst data i)) := by
  induction i generalizing b with
  | zero => rfl
  | succ i ih => exact ih

theorem bitsIn (data : BitVec 32) (i : Nat) :
    smiBits bank smiRead i data b = (shiftIn data (b.samples bank i).1, (b.samples bank i).2) := by
  induction i generalizing b data with
  | zero => rfl
  | succ i ih => exact ih _

theorem highAlready (clock : b.clock = true) : b.setClock bank true = b := by
  rw [Bus.setClock, if_pos clock.symm]

theorem setClockLeft (high : Bool) (b : Bus ρ) : (b.setClock bank high).clock = high := by
  unfold Bus.setClock
  split
  · next same => exact same.symm
  · cases high <;> rfl

theorem sendsClock (clock : b.clock = true) (bits : List Bool) : (b.sends bank bits).clock = true := by
  induction bits generalizing b with
  | nil => exact clock
  | cons bit bits ih => exact ih (setClockLeft bank true _)

theorem samplesClock (clock : b.clock = true) (n : Nat) : (b.samples bank n).2.clock = true := by
  induction n generalizing b with
  | zero => exact clock
  | succ n ih => exact ih (setClockLeft bank true _)

theorem shiftOut (clock : b.clock = true) (data : BitVec 32) (n : Nat) :
    smiBitShift bank data n smiWrite b = (data, b.sends bank (msbFirst data n)) := by
  have run : smiBitShift bank data n smiWrite b =
      ((smiBits bank smiWrite n data (b.setClock bank true)).1,
        (smiBits bank smiWrite n data (b.setClock bank true)).2.setClock bank true) := rfl
  rw [run, highAlready bank clock, bitsOut, highAlready bank (sendsClock bank clock _)]

theorem shiftedIn (clock : b.clock = true) (data : BitVec 32) (n : Nat) :
    smiBitShift bank data n smiRead b = (shiftIn data (b.samples bank n).1, (b.samples bank n).2) := by
  have run : smiBitShift bank data n smiRead b =
      ((smiBits bank smiRead n data (b.setClock bank true)).1,
        (smiBits bank smiRead n data (b.setClock bank true)).2.setClock bank true) := rfl
  rw [run, highAlready bank clock, bitsIn, highAlready bank (samplesClock bank clock _)]

theorem sendsAppend (xs ys : List Bool) : (b.sends bank xs).sends bank ys = b.sends bank (xs ++ ys) :=
  List.foldl_append.symm

theorem headerWord (inning : Bool) (phy reg : BitVec 5) :
    msbFirst ((5 + (BitVec.ofBool inning).setWidth 32) <<< 10 ||| phy.setWidth 32 <<< 5 ||| reg.setWidth 32) 14 =
      false :: header inning phy reg := by
  cases inning <;> simp [msbFirst, header]

theorem preambleWord : msbFirst 0xFFFFFFFF#32 32 = List.replicate 32 true := by decide

theorem smiRegBus (clock : b.clock = true) (phy reg : BitVec 5) (val : BitVec 32) (inning : Bool) :
    smiReg bank ⟨phy.setWidth 32⟩ (reg.setWidth 32) val inning b =
      if inning then
        let answer := (b.sends bank (request true phy reg)).samples bank 18
        (shiftIn val (answer.1.drop 2), answer.2)
      else (val, b.sends bank (request false phy reg ++ true :: false :: msbFirst val 16)) := by
  have opened : ∀ bits, (b.sends bank bits).clock = true := sendsClock bank clock
  rw [smiReg, bindRun, shiftOut bank clock, bindRun, shiftOut bank (opened _), bindRun, preambleWord, headerWord, sendsAppend]
  cases inning with
  | false =>
    have turn : msbFirst (2 : BitVec 32) 2 = [true, false] := by decide
    simp only
    rw [shiftOut bank (opened _), shiftOut bank (sendsClock bank (opened _) _), sendsAppend, sendsAppend, turn]
    rfl
  | true =>
    have value := samplesAdd bank 2 16 (b := b.sends bank (request true phy reg))
    simp only
    rw [shiftedIn bank (opened _), shiftedIn bank (samplesClock bank (opened _) _)]
    refine Eq.trans ?_ (congrArg (fun answer => (shiftIn val (List.drop 2 answer.1), answer.2)) value.symm)
    rfl

/- The bus does what it is for. -/
theorem smiRegRefines (phy reg : BitVec 5) (val : BitVec 32) (inning : Bool) :
    Refines Carries (smiReg bank ⟨phy.setWidth 32⟩ (reg.setWidth 32) val inning)
      (registers bank phy (reg.setWidth 32) val inning) := by
  rintro b _ ⟨resting, rfl⟩
  have back : (reg.setWidth 32).setWidth 5 = reg := by simp
  simp only [smiRegBus bank resting.clock, registers, back]
  cases inning with
  | false =>
    have same : msbFirst val 16 = msbFirst (val.setWidth 16) 16 := by simp [msbFirst]
    simp only [same, Bool.false_eq_true, if_false]
    obtain ⟨rested, contents⟩ := writeAccess bank resting phy reg (val.setWidth 16)
    exact ⟨trivial, rested, contents⟩
  | true =>
    obtain ⟨value, rested, contents⟩ := readAccess bank resting phy reg
    have word := shiftInWord (load bank phy reg b.contents).1 val
    rw [← value] at word
    simp only [if_true]
    exact ⟨word, rested, contents⟩

section calls
variable {σ τ : Type} {R : σ → τ → Prop} {m : BitVec 32 → BitVec 32 → Bool → StateM σ (BitVec 32)}
  {a : BitVec 32 → BitVec 32 → Bool → StateM τ (BitVec 32)}

theorem ethPhyIdRefines (alike : Alike R m a) : Refines R (ethPhyId m) (ethPhyId a) :=
  refinesBind (alike 2 0 smiRead) fun _ => refinesBind (alike 3 0 smiRead) fun _ => refinesPure _

theorem ethPhyConfigRefines (alike : Alike R m a) (eth100 : Bool) : Refines R (ethPhyConfig m eth100) (ethPhyConfig a eth100) :=
  refinesBind (alike 4 0 smiRead) fun _ => refinesBind (alike 4 _ smiWrite) fun _ =>
    refinesBind (alike 0 0 smiRead) fun _ => refinesBind (alike 0 _ smiWrite) fun _ =>
      refinesBind (alike 0 _ smiWrite) fun _ => refinesPure ()

theorem ethPhyConfigNoautoRefines (alike : Alike R m a) (eth100 : Bool) :
    Refines R (ethPhyConfigNoauto m eth100) (ethPhyConfigNoauto a eth100) :=
  refinesBind (alike 0 0 smiRead) fun _ => refinesBind (alike 0 _ smiWrite) fun _ => refinesPure ()

theorem ethPhyLoopbackRefines (alike : Alike R m a) (enable : Bool) :
    Refines R (ethPhyLoopback m enable) (ethPhyLoopback a enable) :=
  refinesBind (alike 0 0 smiRead) fun _ => refinesBind (alike 0 _ smiWrite) fun _ => refinesPure ()

theorem smiCheckLinkStateRefines (alike : Alike R m a) : Refines R (smiCheckLinkState m) (smiCheckLinkState a) :=
  refinesBind (alike 1 0 smiRead) fun _ => refinesPure _

theorem callRefines (alike : Alike R m a) (call : Call) : Refines R (call.run m) (call.run a) := by
  cases call with
  | reg r val inning => exact refinesBind (alike r val inning) fun _ => refinesPure _
  | phyId => exact refinesBind (ethPhyIdRefines alike) fun _ => refinesPure _
  | config eth100 => exact refinesBind (ethPhyConfigRefines alike eth100) fun _ => refinesPure _
  | configNoauto eth100 => exact refinesBind (ethPhyConfigNoautoRefines alike eth100) fun _ => refinesPure _
  | loopback enable => exact refinesBind (ethPhyLoopbackRefines alike enable) fun _ => refinesPure _
  | checkLinkState => exact refinesBind (smiCheckLinkStateRefines alike) fun _ => refinesPure _

end calls

theorem idleFresh {ds : List (BitVec 5 × ρ)} (distinct : (ds.map Prod.fst).Nodup) : Fresh (idle ds) := by
  refine ⟨rfl, rfl, ?_, ?_⟩
  · intro d member
    obtain ⟨d, _, rfl⟩ := List.mem_map.1 member
    exact ⟨rfl, 0, rfl⟩
  · simpa [Bus.contents, idle, Device.contents, Function.comp_def] using distinct

theorem initialised (fresh : Fresh b) : (smiInit bank b).2.Resting ∧ (smiInit bank b).2.contents = b.contents := by
  have run : (smiInit bank b).2 = b.setClock bank true := rfl
  have undriven : b.drivers = [] := by
    rw [onlyStation fun d member => (fresh.waiting d member).1, fresh.station]
    rfl
  rw [run]
  cases clock : b.clock with
  | true =>
    rw [highAlready bank clock]
    exact ⟨⟨clock, by rw [undriven]; exact Nat.zero_le 1, fresh.clear, fun d member => (fresh.waiting d member).2,
      fresh.distinct⟩, rfl⟩
  | false =>
    have still : ((b.devices.map (Device.rise bank b.level)).filterMap Device.out) = [] := by
      rw [risenDrivers, List.filterMap_eq_nil_iff]
      exact fun d member => (fresh.waiting d member).1
    have pulled : b.level = true := by rw [Bus.level, undriven]; rfl
    have raised : b.setClock bank true = { b with clock := true, devices := b.devices.map (Device.rise bank true) } := by
      refine (clockRises bank clock).trans ((settled ?_).trans (by rw [pulled]))
      rw [Bus.drivers, still, fresh.station]
      exact Nat.zero_le 1
    have risen : ∀ d ∈ b.devices, (d.rise bank true).contents = d.contents ∧ ∃ ones, (d.rise bank true).phase = .preamble ones := by
      intro d member
      obtain ⟨_, ones, phase⟩ := fresh.waiting d member
      simp [Device.rise, phase, Device.contents]
    have contents : (b.setClock bank true).contents = b.contents := by
      rw [raised, Bus.contents, Bus.contents, List.map_map]
      exact List.map_congr_left fun d member => (risen d member).1
    refine ⟨⟨by rw [raised], ?_, by rw [raised]; exact fresh.clear, ?_, by rw [contents]; exact fresh.distinct⟩, contents⟩
    · rw [pulled] at still
      rw [raised, Bus.drivers, still, fresh.station]
      exact Nat.zero_le 1
    · rw [raised]
      intro d member
      obtain ⟨d, here, rfl⟩ := List.mem_map.1 member
      exact (risen d here).2

/-- From the ports as they are found, whatever is asked for comes out as if there were no bus: every phy has its
own registers and hears nothing that is meant for another, and the wires are at rest again. -/
theorem sessionOverWires (fresh : Fresh b) (calls : List (BitVec 5 × Call)) :
    let wires := (smiInit bank >>= fun _ => session (fun phy => smiReg bank ⟨phy.setWidth 32⟩) calls) b
    wires.1 = (session (registers bank) calls b.contents).1 ∧
      wires.2.contents = (session (registers bank) calls b.contents).2 ∧ wires.2.clash = false ∧ wires.2.Resting := by
  obtain ⟨resting, contents⟩ := initialised bank fresh
  have alike : ∀ call ∈ calls, Refines Carries (call.2.run (smiReg bank ⟨call.1.setWidth 32⟩)) (call.2.run (registers bank call.1)) :=
    fun call _ => callRefines (smiRegRefines bank call.1) call.2
  obtain ⟨same, rested, kept⟩ := refinesEach alike _ _ ⟨resting, contents⟩
  exact ⟨same, kept, rested.clear, rested⟩

theorem sessionOverWiresTwoPhys :
    let bank : Bank (BitVec 16) := ⟨fun r _ => (r, r), fun _ _ x => x⟩
    let calls : List (BitVec 5 × Call) := [(0, .phyId), (31, .loopback true), (31, .reg 4 0x1e1 smiWrite), (31, .reg 0 0 smiRead)]
    let wires := (smiInit bank >>= fun _ => session (fun phy => smiReg bank ⟨phy.setWidth 32⟩) calls) (idle [(0, 0x1234), (31, 0)])
    wires.1 = (session (registers bank) calls [(0, 0x1234), (31, 0)]).1 ∧
      wires.2.contents = (session (registers bank) calls [(0, 0x1234), (31, 0)]).2 ∧ wires.2.clash = false ∧
      wires.2.Resting :=
  sessionOverWires _ (idleFresh (by decide)) _

end

end ScEthernet.Smi
