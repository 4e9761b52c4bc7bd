import Mathlib.Tactic.Common

/-! # Return codes and firmware opcodes

The `IOReturn` values that the modelled functions compare or return, and the
`MLX_CMD_OP_*` opcodes that they submit.
-/
namespace AppleMCX

/-- `kIOReturn…` -/
inductive IOReturn
  | success | error | badArgument | busy | invalid | ioError | noMemory | noResources | noSpace
  | notFound | notPermitted | notReady | timeout | unsupported
  deriving DecidableEq, Repr

/-- `MLX_CMD_OP_…` -/
inductive Opcode
  | queryHcaCap | setHcaCap | enableHca | disableHca | queryIssi | setIssi | initHca | teardownHca
  | managePages | queryPages | allocUar | freeUar | createMkey | destroyMkey | createEq | destroyEq
  | createCq | destroyCq | createQp | destroyQp | allocPd | deallocPd | allocTransportDomain
  | deallocTransportDomain | createTir | destroyTir | createSq | modifySq | destroySq | createRq | modifyRq
  | destroyRq | createTis | destroyTis | setFlowTableRoot | createFlowTable | destroyFlowTable
  | createFlowGroup | destroyFlowGroup | setFlowTableEntry | deleteFlowTableEntry | queryVportState
  | rst2initQp | init2rtrQp | rtr2rtsQp | setRoceAddress | queryNicVportContext | modifyCongParams | accessReg
  deriving DecidableEq, Repr

/-- The commands that a quarantined command interface still takes. -/
def Opcode.exempt (op : Opcode) : Bool := op = .teardownHca ∨ op = .disableHca

end AppleMCX
