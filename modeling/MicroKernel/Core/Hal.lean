import MicroKernel.Core.Install

/-!
# Routines called from C (`main.core.asm`, sections 6 and 8)

Their arguments lie on the stack, above the return address. The processor's and
the ports' answers are parameters.
-/

namespace MicroKernel.Core

open X86

def outb : Routine := straight [loadAlAt .esp 8, load16At .edx .esp 4, outDx, ret]

def inb (answer : U16 → U8) : Routine := straight [load16At .edx .esp 4, inDx answer, ret]

/-- How both `cpuid` routines begin. -/
def cpuidEntry : List Insn :=
  [cpu (push .ebp), cpu (mov .ebp .esp), cpu (push .ebx), cpu (push .ecx), cpu (push .edx)]

/-- How both end, `.done` in the second. -/
def cpuidDone : List Insn :=
  [cpu (pop .edx), cpu (pop .ecx), cpu (pop .ebx), cpu (mov .esp .ebp), cpu (pop .ebp), ret]

def vendorBody (cpuid : U32 → CpuidAnswer) : List Insn :=
  [cpu (movImm .eax 0), cpuidInsn cpuid, loadAt .edi .ebp 8, storeAt .edi 0 .ebx,
    storeAt .edi 4 .edx, storeAt .edi 8 .ecx, pokeAt8 .edi 12 0]

def cpuidGetVendorString (cpuid : U32 → CpuidAnswer) : Routine :=
  straight (cpuidEntry ++ vendorBody cpuid ++ cpuidDone)

/-- `.feature_not_found` -/
def featureNotFound : List Insn := cpu (movImm .eax 0) :: cpuidDone

/-- `.feature_found` -/
def featureFound : List Insn := cpu (movImm .eax 1) :: cpuidDone

/-- `.check_carry` -/
def checkCarry : Insn := fun s => if s.cf then run featureFound s else run featureNotFound s

def cpuidCheckFeature (cpuid : U32 → CpuidAnswer) : Routine := fun s =>
  let s := run (cpuidEntry ++ [loadAt .eax .ebp 8, cpuidInsn cpuid, loadAt .edi .ebp 12,
    loadAt .esi .ebp 16, cmpImm .edi 0]) s
  if s.zf then some (checkCarry (btReg .ecx .esi s))
  else
    let s := cmpImm .edi 1 s
    if s.zf then some (checkCarry (btReg .edx .esi s)) else some (run featureNotFound s)

/-- The routines that C calls with arguments. -/
inductive CalledRoutine where
  | outb
  | inb
  | cpuidGetVendorString
  | cpuidCheckFeature
  | pitInstall
  deriving DecidableEq, Repr

def CalledRoutine.body (cpuid : U32 → CpuidAnswer) (answer : U16 → U8) :
    CalledRoutine → Routine
  | .outb => Core.outb
  | .inb => Core.inb answer
  | .cpuidGetVendorString => Core.cpuidGetVendorString cpuid
  | .cpuidCheckFeature => Core.cpuidCheckFeature cpuid
  | .pitInstall => Core.pitInstall

end MicroKernel.Core
