/-
  What a host call can do to a frame.

  `HostStep` lists it, guards included; `hostCall_step` says the list is complete.  Statements about
  frames are proved per line of the list and carried through a run by the invariant rule of
  `Base.Resume`.
-/
import Lichen.Processor.HostCalls

open Base
namespace Lichen.Processor
variable {store : StateStore} {ctx ctx' : ContractContext}

/-- Queuing an operation changes the projected accounts and the queue. -/
theorem queueNativeAccountOp_eq_ok (h : queueNativeAccountOp store ctx op = .ok ctx') :
    ∃ state, ctx' = { ctx with
      pendingNativeAccountState := state
      pendingNativeAccountOps := ctx.pendingNativeAccountOps ++ [op] } := by
  unfold queueNativeAccountOp at h
  simp only [ok_rules] at h
  grind

theorem queueNativeAccountOps_eq_ok :
    ∀ {ctx ctx' : ContractContext}, queueNativeAccountOps store ctx ops = .ok ctx' →
      ∃ state, ctx' = { ctx with
        pendingNativeAccountState := state
        pendingNativeAccountOps := ctx.pendingNativeAccountOps ++ ops } := by
  induction ops with
  | nil =>
    intro ctx ctx' h
    refine ⟨ctx.pendingNativeAccountState, ?_⟩
    rw [← Except.ok.inj h, List.append_nil]
  | cons op ops ih =>
    intro ctx ctx' h
    obtain ⟨ctx₁, hop, hrest⟩ := tryFold_cons_eq_ok.mp h
    obtain ⟨state₁, rfl⟩ := queueNativeAccountOp_eq_ok hop
    obtain ⟨state, rfl⟩ := ih hrest
    simp

/-- The caller's deltas going into a merge. -/
def escrowed (ctx : ContractContext) (attached : Option Attached) : HashMap Pubkey Int :=
  match attached with
  | some a => a.deltas
  | none => ctx.pendingCccValueDeltas

variable {result : ContractResult}

/-- Merging a callee changes the deltas, the projected accounts, the queue, the shared changes and
    the contracts entered. -/
theorem mergeCallee_eq_some (h : mergeCallee store ctx target value attached result = some ctx') :
    ctx.pendingNativeAccountOps.length ≤ result.nativeAccountOps.length
      ∧ ∃ deltas state,
        committedDeltas (escrowed ctx attached) target value result.cccValueDeltas = some deltas
        ∧ ctx' = { ctx with
            pendingCccValueDeltas := deltas
            pendingNativeAccountState := state
            pendingNativeAccountOps := ctx.pendingNativeAccountOps
              ++ result.nativeAccountOps.drop ctx.pendingNativeAccountOps.length
            pendingCccChanges :=
              if result.storageChanges.isEmpty then result.crossCallChanges
              else result.crossCallChanges.put target
                (((result.crossCallChanges.get target).getD ∅).overlay result.storageChanges)
            entered := result.entered } := by
  unfold mergeCallee at h
  simp only [Option.bind_eq_bind, Option.bind_eq_some_iff] at h
  obtain ⟨deltas, hdeltas, h⟩ := h
  split at h
  · cases h
  · rename_i hlen
    simp only [Option.bind_eq_some_iff, Option.pure_def, Option.some.injEq, toOption_eq_some] at h
    obtain ⟨merged, hqueued, rfl⟩ := h
    obtain ⟨state, rfl⟩ := queueNativeAccountOps_eq_ok hqueued
    refine ⟨Nat.le_of_not_lt hlen, deltas, state, ?_, rfl⟩
    rw [← hdeltas]
    cases attached <;> rfl

/-- The operations a native call with these operands can queue from a frame of `contract`. -/
def NativeCallAsks (contract : Pubkey) (functionName : String) (args : Bytes)
    (op : NativeAccountOp) : Prop :=
  nativeAccountOpOf contract functionName args = some op
    ∨ functionName = "nft_transfer_from"
      ∧ ∃ token collection source target encodedState,
          op = .nftTransfer token collection source target encodedState

/-- A called frame that succeeded and was merged.  The caller's compute was `charged` after the base
    cost, and `spent` after the callee's. -/
structure CalledFrame (rt : Runtime) (store : StateStore) (exec : Exec) (ctx : ContractContext)
    (target : Pubkey) (functionName : String) (args : Bytes) (value charged spent : Nat)
    (contract : ContractAccount) (attached : Option Attached) (result : ContractResult)
    (ctx' : ContractContext) : Prop where
  target_ne : target ≠ ⟨0⟩
  depth_lt : ctx.callDepth < MAX_CROSS_CALL_DEPTH
  load : loadCallee rt store ctx.slot target = some contract
  attach : if value > 0 then
      ∃ a, attached = some a
        ∧ attachValue store { ctx with computeRemaining := charged } target value = some a
    else attached = none
  ran : exec contract functionName args
    (calleeContext store { ctx with computeRemaining := charged } target value attached) = .ok result
  success : result.success = true
  merged : mergeCallee store { ctx with computeRemaining := spent } target value attached result
    = some ctx'

/-- **The steps of a frame.** -/
inductive HostStep (rt : Runtime) (store : StateStore) (exec : Exec) (ctx : ContractContext) :
    HostCall → ContractContext → Prop
  | idle (call : HostCall) (compute : Nat) (data : Bytes) :
      HostStep rt store exec ctx call { ctx with computeRemaining := compute, returnData := data }
  | write (key val : Bytes) (compute used : Nat) :
      HostStep rt store exec ctx (.storageWrite key val)
        { ctx with
          computeRemaining := compute
          storageBytesUsed := used
          storage := ctx.storage.put key val
          storageChanges := ctx.storageChanges.put key (some val) }
  | delete (key : Bytes) (compute used : Nat) :
      HostStep rt store exec ctx (.storageDelete key)
        { ctx with
          computeRemaining := compute
          storageBytesUsed := used
          storage := ctx.storage.remove key
          storageChanges := ctx.storageChanges.put key none }
  | native (functionName : String) (args : Bytes) (value resultLen : Nat) (resultWritable : Bool)
      (op : NativeAccountOp) (compute : Nat) (ctx' : ContractContext)
      (hasks : NativeCallAsks ctx.contract functionName args op)
      (hqueue : queueNativeAccountOp store { ctx with computeRemaining := compute } op = .ok ctx') :
      HostStep rt store exec ctx
        (.crossContractCall ⟨0⟩ functionName args value resultLen resultWritable) ctx'
  | call (target : Pubkey) (functionName : String) (args : Bytes) (value resultLen : Nat)
      (resultWritable : Bool) (charged spent : Nat) (contract : ContractAccount)
      (attached : Option Attached) (result : ContractResult) (ctx' : ContractContext)
      (hcalled : CalledFrame rt store exec ctx target functionName args value charged spent contract
        attached result ctx') :
      HostStep rt store exec ctx
        (.crossContractCall target functionName args value resultLen resultWritable) ctx'

section
variable {rt : Runtime} {store : StateStore} {exec : Exec} {ctx : ContractContext}

/-- A step that only charges compute. -/
theorem HostStep.charge (call : HostCall) (compute : Nat) :
    HostStep rt store exec ctx call { ctx with computeRemaining := compute } :=
  .idle call compute ctx.returnData

theorem HostStep.none (call : HostCall) : HostStep rt store exec ctx call ctx :=
  .idle call ctx.computeRemaining ctx.returnData

theorem deductCompute_fst (ctx : ContractContext) (cost : Nat) :
    ∃ compute, (deductCompute ctx cost).1 = { ctx with computeRemaining := compute } := by
  unfold deductCompute
  split
  · exact ⟨0, rfl⟩
  · exact ⟨ctx.computeRemaining - cost, rfl⟩

theorem hostStorageRead_step (key : Bytes) (valLen : Nat) :
    HostStep rt store exec ctx (.storageRead key valLen) (hostStorageRead ctx key valLen).1 := by
  unfold hostStorageRead
  split
  · exact .none _
  · obtain ⟨compute, hdeduct⟩ := deductCompute_fst ctx COMPUTE_STORAGE_READ
    simp only [hdeduct]
    exact .charge _ compute

theorem hostStorageWrite_step (key val : Bytes) :
    HostStep rt store exec ctx (.storageWrite key val) (hostStorageWrite ctx key val).1 := by
  unfold hostStorageWrite
  split
  · exact .none _
  · obtain ⟨compute, hdeduct⟩ := deductCompute_fst ctx
      (COMPUTE_STORAGE_WRITE + val.length * COMPUTE_STORAGE_WRITE_PER_BYTE)
    simp only [hdeduct]
    split
    · exact .charge _ compute
    · split
      · exact .charge _ compute
      · exact .write key val compute _

theorem hostStorageDelete_step (key : Bytes) :
    HostStep rt store exec ctx (.storageDelete key) (hostStorageDelete ctx key).1 := by
  unfold hostStorageDelete
  split
  · exact .none _
  · obtain ⟨compute, hdeduct⟩ := deductCompute_fst ctx COMPUTE_STORAGE_DELETE
    simp only [hdeduct]
    cases ctx.storage.get key with
    | none => exact .charge _ compute
    | some old => exact .delete key compute _

theorem hostSetReturnData_step (data : Bytes) :
    HostStep rt store exec ctx (.setReturnData data) (hostSetReturnData ctx data).1 := by
  unfold hostSetReturnData
  split
  · exact .none _
  · obtain ⟨compute, hdeduct⟩ := deductCompute_fst ctx
      (COMPUTE_SET_RETURN_DATA + data.length * COMPUTE_BYTE_COST)
    simp only [hdeduct]
    split
    · exact .idle _ compute data
    · exact .charge _ compute

/-- A native call queues at most one operation, and only one it asks for. -/
theorem handleNativeAccountCall_cases (rt : Runtime) (store : StateStore) (ctx : ContractContext)
    (functionName : String) (args : Bytes) (resultLen : Nat) (resultWritable : Bool) :
    (handleNativeAccountCall rt store ctx functionName args resultLen resultWritable).1 = ctx
      ∨ ∃ op, NativeCallAsks ctx.contract functionName args op
          ∧ queueNativeAccountOp store ctx op
            = .ok (handleNativeAccountCall rt store ctx functionName args resultLen resultWritable).1
    := by
  unfold handleNativeAccountCall
  split
  · exact .inl rfl
  · exact .inl rfl
  · exact .inl rfl
  · unfold nftTransferFrom
    simp only
    split
    · exact .inl rfl
    · split
      · exact .inl rfl
      · split
        · exact .inl rfl
        · split
          · exact .inl rfl
          · split
            · exact .inl rfl
            · rename_i hqueue
              exact .inr ⟨_, .inr ⟨rfl, _, _, _, _, _, rfl⟩, hqueue⟩
  · exact .inl rfl
  · split
    · exact .inl rfl
    · split <;> exact .inl rfl
  · unfold nativeBalanceCall
    split
    · exact .inl rfl
    · rename_i op hop
      split
      · exact .inl rfl
      · rename_i hqueue
        exact .inr ⟨op, .inl hop, hqueue⟩

/-- A call below the depth limit is a step of the host. -/
theorem callContract_step (target : Pubkey) (functionName : String) (args : Bytes)
    (value resultLen : Nat) (resultWritable : Bool) (hne : target ≠ ⟨0⟩)
    (hdepth : ctx.callDepth < MAX_CROSS_CALL_DEPTH) :
    HostStep rt store exec ctx
      (.crossContractCall target functionName args value resultLen resultWritable)
      (callContract rt store exec { ctx with computeRemaining := charged } target functionName args
        value resultLen resultWritable).1 := by
  unfold callContract
  split
  · exact .charge _ charged
  · rename_i contract hload
    simp only
    split
    · exact .charge _ charged
    · split
      · exact .charge _ charged
      · rename_i attached hattached
        split
        · exact .charge _ charged
        · rename_i result hran
          split
          · exact .charge _ _
          · rename_i hsuccess
            split
            · exact .charge _ _
            · rename_i merged hmerged
              have hattach : if value > 0 then
                  ∃ a, attached = some a
                    ∧ attachValue store { ctx with computeRemaining := charged } target value
                      = some a
                else attached = none := by
                by_cases hv : value > 0
                · rw [if_pos hv] at hattached ⊢
                  obtain ⟨a, ha, rfl⟩ := Option.map_eq_some_iff.mp hattached
                  exact ⟨a, rfl, ha⟩
                · grind
              have hcalled : HostStep rt store exec ctx
                  (.crossContractCall target functionName args value resultLen resultWritable)
                  merged :=
                .call target functionName args value resultLen resultWritable charged _ contract
                  attached result merged ⟨hne, hdepth, hload, hattach, hran,
                    success_of_evaluateContractOutcome hsuccess, hmerged⟩
              split
              · exact hcalled
              · split
                · exact hcalled
                · exact .charge _ _

/-- **Every host call is a step.** -/
theorem hostCall_step (rt : Runtime) (store : StateStore) (exec : Exec) (ctx : ContractContext)
    (call : HostCall) : HostStep rt store exec ctx call (hostCall rt store exec ctx call).1 := by
  cases call with
  | storageRead key valLen => exact hostStorageRead_step key valLen
  | storageWrite key val => exact hostStorageWrite_step key val
  | storageDelete key => exact hostStorageDelete_step key
  | setReturnData data => exact hostSetReturnData_step data
  | inform name operands =>
    obtain ⟨compute, hdeduct⟩ := deductCompute_fst ctx (rt.inform name operands ctx.info store).1
    simp only [hostCall, hdeduct]
    exact .charge _ compute
  | crossContractCall target functionName args value resultLen resultWritable =>
    simp only [hostCall, hostCrossContractCall]
    split
    · exact .none _
    · obtain ⟨compute, hdeduct⟩ := deductCompute_fst ctx COMPUTE_CROSS_CALL
      rw [hdeduct]
      split
      · exact .charge _ compute
      · split
        · rename_i htarget
          subst htarget
          rcases handleNativeAccountCall_cases rt store { ctx with computeRemaining := compute }
            functionName args resultLen resultWritable with heq | ⟨op, hasks, hqueue⟩
          · rw [heq]
            exact .charge _ compute
          · exact .native functionName args value resultLen resultWritable op compute _ hasks hqueue
        · grind [callContract_step]

end

/-- The effects of a successful result are those of the context the run ended in. -/
structure ContractResult.EndsIn (result : ContractResult) (ctx : ContractContext) : Prop where
  storageChanges : result.storageChanges = ctx.storageChanges
  crossCallChanges : result.crossCallChanges = ctx.pendingCccChanges
  cccValueDeltas : result.cccValueDeltas = ctx.pendingCccValueDeltas
  nativeAccountOps : result.nativeAccountOps = ctx.pendingNativeAccountOps
  entered : result.entered = ctx.entered

theorem frameResult_endsIn (h : (frameResult initialCompute ctx ending).success = true) :
    (frameResult initialCompute ctx ending).EndsIn ctx := by
  cases ending with
  | trapped message wasmCompute =>
    simp only [frameResult] at h
    split at h <;> exact absurd h (by simp [failedResult])
  | returned returnCode wasmCompute =>
    simp only [frameResult] at h ⊢
    split at h
    · exact absurd h (by simp [failedResult])
    · rename_i hbudget
      rw [if_neg hbudget]
      exact ⟨rfl, rfl, rfl, rfl, rfl⟩

/-! ## Frames -/

/-- **A frame** runs its program against the host. -/
theorem executeFrame_eq_ok
    (h : executeFrame rt store exec contract functionName args start = .ok result)
    (hsuccess : result.success = true) : ∃ program : Program,
      result.EndsIn (program.run (hostCall rt store exec) (prepareExecutionContext start)).1 := by
  unfold executeFrame at h
  simp only [ok_rules, Except.ok.injEq] at h
  obtain ⟨-, program, -, rfl⟩ := h
  exact ⟨program, frameResult_endsIn hsuccess⟩

section
variable (rt : Runtime) (store : StateStore) (atStart : ContractContext → Prop)
  (inv : ContractContext → ContractContext → Prop)

/-- A successful run of a frame that began as `atStart` says ends with `inv`. -/
def ExecKeeps (exec : Exec) : Prop :=
  ∀ contract functionName args start result,
    exec contract functionName args start = .ok result → result.success = true →
    atStart start → ∃ ctx, inv start ctx ∧ result.EndsIn ctx

/-- **The rule for call trees.** What holds when a frame begins, and is kept by each of its host
    calls as long as the frames it calls keep it, holds at the end of every frame.  The induction is
    on the call levels left, and inside a level along the program. -/
theorem execute_keeps (hinit : ∀ start, atStart start → inv start (prepareExecutionContext start))
    (hstep : ∀ exec, ExecKeeps atStart inv exec → ∀ start ctx call ctx', inv start ctx →
      HostStep rt store exec ctx call ctx' → inv start ctx') :
    ∀ levels, ExecKeeps atStart inv (execute rt store levels) := by
  have hframe : ∀ exec, ExecKeeps atStart inv exec →
      ExecKeeps atStart inv (executeFrame rt store exec) := by
    intro exec hexec contract functionName args start result hran hsuccess hstart
    obtain ⟨program, hends⟩ := executeFrame_eq_ok hran hsuccess
    refine ⟨_, ?_, hends⟩
    exact Resume.run_invariant program (fun ctx call h =>
        hstep exec hexec start ctx call _ h (hostCall_step rt store exec ctx call))
      _ (hinit start hstart)
  intro levels
  induction levels with
  | zero => exact hframe _ fun _ _ _ _ _ hran => nomatch hran
  | succ levels ih => exact hframe _ ih

end
end Lichen.Processor
