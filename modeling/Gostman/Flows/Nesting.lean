import Gostman.Flows.English
import Gostman.Flows.Ready
/-!
# Flows that call flows

The search of the validator and the calls of a run resolve the same references,
each in its own list of flows.  What a reference comes to depends only on the ids
and the names in that list, so a flow without problems calls no flow twice on any
chain, and no chain goes deeper than the search allows.
-/

namespace Gostman.Flows

open Gostman.Lib Gostman.Js

def StoredFlow.key (flow : StoredFlow) : String × String := (flow.id, flow.name)

/-- `resolveFlow` on the keys of the flows: the id of the flow it finds. -/
def resolveKey (fields : FlowFields) (keys : List (String × String)) : Option String :=
  if fields.flowId ≠ "" ∧ fields.flowId ∈ keys.map Prod.fst then some fields.flowId
  else if fields.flow = "" then none
  else match keys.filter fun key => key.2 = fields.flow with
    | [found] => some found.1
    | _ => none

theorem map_id_uniqueMatch (flows : List StoredFlow) (name : String) :
    (uniqueMatch flows fun flow => flow.name = name).map StoredFlow.id =
      match (flows.map StoredFlow.key).filter fun key => key.2 = name with
      | [found] => some found.1
      | _ => none := by
  have hfilter : (flows.map StoredFlow.key).filter (fun key => key.2 = name) =
      (flows.filter fun flow => flow.name = name).map StoredFlow.key := by
    rw [List.filter_map]
    rfl
  rw [hfilter, uniqueMatch]
  generalize flows.filter (fun flow => decide (flow.name = name)) = found
  match found with
  | [] => rfl
  | [one] => rfl
  | first :: second :: rest => rfl

theorem map_id_resolveFlow (fields : FlowFields) (flows : List StoredFlow) :
    (resolveFlow fields flows).map StoredFlow.id =
      resolveKey fields (flows.map StoredFlow.key) := by
  have hids : (flows.map StoredFlow.key).map Prod.fst = flows.map StoredFlow.id := by
    rw [List.map_map]
    rfl
  unfold resolveFlow resolveKey
  rw [hids]
  by_cases hid : fields.flowId = ""
  · simp only [hid, if_true, ne_eq, not_true_eq_false, false_and, if_false]
    split_ifs
    · rfl
    · exact map_id_uniqueMatch flows fields.flow
  · simp only [hid, if_false, ne_eq, not_false_eq_true, true_and]
    cases hfound : flows.find? fun flow => flow.id = fields.flowId with
    | some found =>
        have hmem := List.mem_of_find?_eq_some hfound
        have heq : found.id = fields.flowId := by simpa using List.find?_some hfound
        have hin : fields.flowId ∈ flows.map StoredFlow.id := List.mem_map.2 ⟨found, hmem, heq⟩
        simp [hin, heq]
    | none =>
        have hout : fields.flowId ∉ flows.map StoredFlow.id := by
          rintro hin
          obtain ⟨flow, hflow, heq⟩ := List.mem_map.1 hin
          have h := List.find?_eq_none.1 hfound flow hflow
          simp [heq] at h
        simp only [hout, if_false]
        split_ifs
        · rfl
        · exact map_id_uniqueMatch flows fields.flow

/-- What a reference comes to does not depend on the order of the flows. -/
theorem resolveKey_perm (fields : FlowFields) {keys others : List (String × String)}
    (h : keys.Perm others) : resolveKey fields keys = resolveKey fields others := by
  have hmem : fields.flowId ∈ keys.map Prod.fst ↔ fields.flowId ∈ others.map Prod.fst :=
    (h.map Prod.fst).mem_iff
  have hfilter := h.filter fun key => decide (key.2 = fields.flow)
  unfold resolveKey
  simp only [hmem]
  split_ifs
  · rfl
  · rfl
  · generalize keys.filter (fun key => decide (key.2 = fields.flow)) = found at hfilter
    generalize others.filter (fun key => decide (key.2 = fields.flow)) = found' at hfilter
    match found, found', hfilter with
    | [], [], _ => rfl
    | [one], [other], hfilter =>
        obtain rfl := List.singleton_perm_singleton.1 hfilter
        rfl
    | first :: second :: rest, first' :: second' :: rest', _ => rfl
    | [], _ :: _, hfilter => exact absurd hfilter.length_eq (by simp)
    | _ :: _, [], hfilter => exact absurd hfilter.length_eq (by simp)
    | [_], _ :: _ :: _, hfilter => exact absurd hfilter.length_eq (by simp)
    | _ :: _ :: _, [_], hfilter => exact absurd hfilter.length_eq (by simp)

/-! ## The scope of a flow -/

section Scope

variable {lib : Library} {requests : List SavedRequest} {flows : List StoredFlow}
  (hids : (flows.map StoredFlow.id).Nodup) (htrimmed : ∀ flow ∈ flows, trim flow.id = flow.id)

include htrimmed in
theorem key_stored (lib : Library) {flow : StoredFlow} (hflow : flow ∈ flows) :
    (normalizeFlow lib.numerals flow.raw).stored.key = flow.key := by
  have hraw := flow.id_eq
  have hname := flow.name_eq
  cases hobject : flow.raw with
  | obj fields =>
      rw [hobject] at hraw hname
      simp [StoredFlow.key, Flow.stored, normalizeFlow, hraw, hname, trimmed, text,
        htrimmed flow hflow]
  | _ => simp [hobject, Json.field] at hraw

include hids in
/-- A flow and the flows of other ids are all the flows. -/
theorem perm_of_mem {flow : StoredFlow} (hflow : flow ∈ flows) :
    (flow :: flows.filter fun candidate => candidate.id ≠ flow.id).Perm flows := by
  induction flows with
  | nil => cases hflow
  | cons first rest ih =>
      obtain ⟨hfirst, hrest⟩ := List.nodup_cons.1 hids
      rcases List.mem_cons.1 hflow with rfl | hmem
      · have hothers : rest.filter (fun candidate => candidate.id ≠ flow.id) = rest := by
          rw [List.filter_eq_self]
          intro other hother
          simp only [ne_eq, decide_eq_true_eq]
          rintro heq
          exact hfirst (List.mem_map.2 ⟨other, hother, heq⟩)
        simp only [ne_eq, List.filter_cons, not_true_eq_false, decide_false, Bool.false_eq_true,
          if_false]
        simp only [ne_eq] at hothers
        rw [hothers]
      · have hne : first.id ≠ flow.id := by
          intro heq
          exact hfirst (heq ▸ List.mem_map.2 ⟨flow, hmem, rfl⟩)
        rw [List.filter_cons_of_pos (by simpa using hne)]
        exact (List.Perm.swap _ _ _).trans ((ih hrest hmem).cons first)

/-- The lists a run or a check may look for a flow in: the flows themselves, or
those of the scope of one of them. -/
def LooksIn (lib : Library) (requests : List SavedRequest) (flows known : List StoredFlow) : Prop :=
  known = flows ∨
    ∃ draft ∈ flows, known = (flowScope (normalizeFlow lib.numerals draft.raw) requests flows).flows

include hids htrimmed in
theorem LooksIn.keys_perm {known : List StoredFlow} (h : LooksIn lib requests flows known) :
    (known.map StoredFlow.key).Perm (flows.map StoredFlow.key) := by
  rcases h with rfl | ⟨draft, hdraft, rfl⟩
  · exact List.Perm.refl _
  · have hkey := key_stored htrimmed lib hdraft
    have hid : (normalizeFlow lib.numerals draft.raw).id = draft.id := congrArg Prod.fst hkey
    have h := (perm_of_mem hids hdraft).map StoredFlow.key
    simp only [flowScope, hid, List.map_cons, hkey]
    simpa only [List.map_cons] using h

include hids htrimmed in
/-- A reference comes to the same flow in all of them. -/
theorem LooksIn.resolve_eq {known others : List StoredFlow}
    (h : LooksIn lib requests flows known) (h' : LooksIn lib requests flows others)
    (fields : FlowFields) :
    (resolveFlow fields known).map StoredFlow.id = (resolveFlow fields others).map StoredFlow.id := by
  rw [map_id_resolveFlow, map_id_resolveFlow]
  exact resolveKey_perm fields ((h.keys_perm hids htrimmed).trans (h'.keys_perm hids htrimmed).symm)

include hids htrimmed in
/-- In the scope of a flow, every other flow is found under its id. -/
theorem read_flowsById (lib : Library) (requests : List SavedRequest) {draft flow : StoredFlow} (hdraft : draft ∈ flows) (hflow : flow ∈ flows)
    (hne : flow.id ≠ draft.id) :
    (flowScope (normalizeFlow lib.numerals draft.raw) requests flows).flowsById.read flow.id =
      some flow := by
  have hkey := key_stored htrimmed lib hdraft
  have hid : (normalizeFlow lib.numerals draft.raw).id = draft.id := congrArg Prod.fst hkey
  have hknown : LooksIn lib requests flows
      (flowScope (normalizeFlow lib.numerals draft.raw) requests flows).flows :=
    .inr ⟨draft, hdraft, rfl⟩
  set scope := flowScope (normalizeFlow lib.numerals draft.raw) requests flows with hscope
  have hnodup : (Record.keys (scope.flows.map fun candidate => (candidate.id, candidate))).Nodup := by
    have hperm := (hknown.keys_perm hids htrimmed).map Prod.fst
    simp only [List.map_map] at hperm
    rw [Record.keys, List.map_map]
    exact hperm.nodup_iff.2 hids
  have hmem : flow ∈ scope.flows := by
    simp only [hscope, flowScope, hid]
    exact List.mem_cons_of_mem _ (List.mem_filter.2 ⟨hflow, by simpa using hne⟩)
  change (Record.ofEntries (scope.flows.map fun candidate => (candidate.id, candidate))).read _ = _
  rw [Record.ofEntries_of_nodup _ hnodup]
  exact Record.read_of_mem hnodup (List.mem_map.2 ⟨flow, hmem, rfl⟩)

end Scope

/-! ## Chains of calls -/

/-- One flow calls another: a Flow step of the first, at any depth of its loops
and Parallel steps, names the second. -/
def Calls (lib : Library) (requests : List SavedRequest) (flows : List StoredFlow)
    (caller called : StoredFlow) : Prop :=
  called ∈ flows ∧ ∃ known, LooksIn lib requests flows known ∧
    ∃ fields ∈ flowSteps (normalizeFlow lib.numerals caller.raw),
      (resolveFlow fields known).map StoredFlow.id = some called.id

theorem all_fine {reaches : List Reach} (h : (reaches.find? (· ≠ .fine)).getD .fine = .fine) :
    ∀ one ∈ reaches, one = .fine := by
  intro one hone
  cases hfound : reaches.find? (· ≠ .fine) with
  | none => simpa using List.find?_eq_none.1 hfound one hone
  | some found =>
      rw [hfound] at h
      have hne := List.find?_some hfound
      rw [Option.getD_some] at h
      simp [h] at hne

theorem reach_fine {lib : Library} {scope : Scope} {bound : Nat} {flowId : String}
    {path : List String} (h : reach lib scope bound flowId path = .fine) :
    flowId ∉ path ∧ path.length ≤ maxFlowDepth ∧ ∃ rest, bound = rest + 1 ∧
      ∀ flow, scope.flowsById.read flowId = some flow →
        ∀ fields ∈ flowSteps (normalizeFlow lib.numerals flow.raw),
          ∀ called, resolveFlow fields scope.flows = some called →
            reach lib scope rest called.id (path ++ [flowId]) = .fine := by
  cases bound with
  | zero => simp [reach] at h
  | succ rest =>
      unfold reach at h
      split_ifs at h with hpath hdeep
      refine ⟨hpath, by omega, rest, rfl, fun flow hflow fields hfields called hcalled => ?_⟩
      rw [hflow] at h
      simp only at h
      have hfine := all_fine h _ (List.mem_map.2 ⟨fields, hfields, rfl⟩)
      rwa [hcalled] at hfine

/-- A flow without problems finds every flow it calls, and the search from
there is fine. -/
theorem flowProblems_eq_nil {lib : Library} {fields : FlowFields} {scope : Scope}
    (h : flowProblems lib fields scope = []) :
    ∀ called, resolveFlow fields scope.flows = some called →
      reach lib scope (maxFlowDepth + 1) called.id [scope.flow.id] = .fine := by
  intro called hcalled
  unfold flowProblems at h
  simp only [hcalled] at h
  by_cases hempty : fields.flow = "" ∧ fields.flowId = ""
  · simp [hempty] at h
  · rw [if_neg hempty] at h
    cases hreach : reach lib scope (maxFlowDepth + 1) called.id [scope.flow.id] with
    | fine => rfl
    | cycle => simp [hreach] at h
    | deep => simp [hreach] at h

section Chains

variable {lib : Library} {requests : List SavedRequest} {flows : List StoredFlow}
  (hids : (flows.map StoredFlow.id).Nodup) (htrimmed : ∀ flow ∈ flows, trim flow.id = flow.id)

include hids htrimmed

/-- From a flow the search has found fine, no chain of calls comes back to the
path or to itself, and none is longer than the search goes. -/
theorem chain_of_reach_fine {root : StoredFlow} (hroot : root ∈ flows) {called : List StoredFlow}
    {flow : StoredFlow} (hflow : flow ∈ flows) {bound : Nat} {path : List String}
    (hpath : root.id ∈ path)
    (hreach : reach lib (flowScope (normalizeFlow lib.numerals root.raw) requests flows) bound
      flow.id path = .fine)
    (hchain : List.IsChain (Calls lib requests flows) (flow :: called)) :
    (∀ one ∈ flow :: called, one.id ∉ path) ∧ ((flow :: called).map StoredFlow.id).Nodup ∧
      path.length + called.length ≤ maxFlowDepth := by
  induction called generalizing flow bound path with
  | nil =>
      obtain ⟨hnot, hlength, -⟩ := reach_fine hreach
      simp [hnot, hlength]
  | cons next rest ih =>
      obtain ⟨hnot, -, left, -, hcalls⟩ := reach_fine hreach
      rw [List.isChain_cons_cons] at hchain
      obtain ⟨⟨hnext, known, hknown, fields, hfields, hresolved⟩, hrest⟩ := hchain
      have hread := read_flowsById hids htrimmed lib requests hroot hflow
        fun heq => hnot (heq ▸ hpath)
      have hscope : LooksIn lib requests flows
          (flowScope (normalizeFlow lib.numerals root.raw) requests flows).flows :=
        .inr ⟨root, hroot, rfl⟩
      rw [hknown.resolve_eq hids htrimmed hscope, Option.map_eq_some_iff] at hresolved
      obtain ⟨found, hfound, hid⟩ := hresolved
      have hfine := hcalls flow hread fields hfields found hfound
      rw [hid] at hfine
      obtain ⟨hfresh, hnodup, hlength⟩ := ih hnext (by simp [hpath]) hfine hrest
      simp only [List.length_append, List.length_cons, List.length_nil] at hlength ⊢
      refine ⟨?_, ?_, by omega⟩
      · intro one hone
        rcases List.mem_cons.1 hone with rfl | hone
        · exact hnot
        · exact fun hin => hfresh one hone (by simp [hin])
      · rw [List.map_cons, List.nodup_cons]
        refine ⟨fun hin => ?_, hnodup⟩
        obtain ⟨one, hone, heq⟩ := List.mem_map.1 hin
        exact hfresh one hone (by simp [heq])

/-- On every chain of calls from a flow without problems no flow comes twice,
and the chain has at most `maxFlowDepth` calls. -/
theorem call_chain_bounded {root : StoredFlow} (hroot : root ∈ flows)
    (hvalid : validateFlow lib (normalizeFlow lib.numerals root.raw) requests flows = [])
    {called : List StoredFlow} (hchain : List.IsChain (Calls lib requests flows) (root :: called)) :
    ((root :: called).map StoredFlow.id).Nodup ∧ called.length ≤ maxFlowDepth := by
  cases called with
  | nil => simp
  | cons next rest =>
      have hready := ready_createScene ⟨requests, flows, [], none⟩ hvalid
      rw [List.isChain_cons_cons] at hchain
      obtain ⟨⟨hnext, known, hknown, fields, hfields, hresolved⟩, hrest⟩ := hchain
      rw [flowSteps, walkSteps_eq, List.mem_filterMap] at hfields
      obtain ⟨entry, hentry, hmatch⟩ := hfields
      obtain ⟨spot, hspot, rfl⟩ := List.mem_map.1 hentry
      have hstep : spot.item.head.fields = .flow fields := by
        simp only [Outline.Spot.mapParent] at hmatch
        split at hmatch <;> simp_all
      have hscope : LooksIn lib requests flows
          (flowScope (normalizeFlow lib.numerals root.raw) requests flows).flows :=
        .inr ⟨root, hroot, rfl⟩
      rw [hknown.resolve_eq hids htrimmed hscope, Option.map_eq_some_iff] at hresolved
      obtain ⟨found, hfound, hid⟩ := hresolved
      have hfine := flowProblems_eq_nil (hready.flow_reached hspot hstep) found hfound
      rw [hid] at hfine
      have hkey := key_stored htrimmed lib hroot
      have hrootId : (normalizeFlow lib.numerals root.raw).id = root.id := congrArg Prod.fst hkey
      change reach lib _ _ _ [(normalizeFlow lib.numerals root.raw).id] = .fine at hfine
      rw [hrootId] at hfine
      obtain ⟨hfresh, hnodup, hlength⟩ :=
        chain_of_reach_fine hids htrimmed hroot hnext (by simp) hfine hrest
      simp only [List.length_cons, List.length_nil] at hlength ⊢
      refine ⟨?_, by omega⟩
      rw [List.map_cons, List.nodup_cons]
      refine ⟨fun hin => ?_, hnodup⟩
      obtain ⟨one, hone, heq⟩ := List.mem_map.1 hin
      exact hfresh one hone (by simp [heq])

end Chains

def leafFlow : StoredFlow where
  raw := .obj [("id", .str "leaf"), ("name", .str "Leaf"),
    ("steps", .arr [.obj [("id", .str "stop"), ("kind", .str "end")]])]
  id := "leaf"
  name := "Leaf"
  id_eq := rfl
  name_eq := rfl

/-- A flow that runs it by its name, in a branch of a Parallel step. -/
def rootFlow : StoredFlow where
  raw := .obj [("id", .str "root"), ("name", .str "Root"),
    ("steps", .arr [.obj [("id", .str "both"), ("kind", .str "parallel"),
      ("steps", .arr [.obj [("id", .str "call"), ("kind", .str "flow"), ("flow", .str "Leaf")]])]])]
  id := "root"
  name := "Root"
  id_eq := rfl
  name_eq := rfl

theorem call_chain_bounded_root :
    List.IsChain (Calls plainLibrary [] [leafFlow, rootFlow]) [rootFlow, leafFlow] ∧
      (["root", "leaf"].Nodup ∧ 1 ≤ maxFlowDepth) := by
  have hcall : Calls plainLibrary [] [leafFlow, rootFlow] rootFlow leafFlow := by
    refine ⟨by simp, [leafFlow, rootFlow], .inl rfl, _, List.mem_singleton.2 rfl, rfl⟩
  have hchain : List.IsChain (Calls plainLibrary [] [leafFlow, rootFlow]) [rootFlow, leafFlow] := by
    simpa using hcall
  exact ⟨hchain, call_chain_bounded (by decide +kernel) (by decide +kernel) (by simp)
    (by decide +kernel) hchain⟩

end Gostman.Flows
