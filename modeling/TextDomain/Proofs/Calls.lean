import TextDomain.Proofs.Settling

/-!
# Calls on a draft

Whatever is done to a draft comes down to reports and replacements of single tokens: a rule that is
run reports each of its findings and replaces it if told to (`Draft.Op.calls`). Apart from what is
logged, operations do what their calls do (`Draft.silent_after`).

A replacement goes on record with the last issue about its token, so the text that an issue ends up
with is decided by the calls between its report and the next report about the same token
(`recorded`). `Draft.complaints_after` says so for any calls.
-/

namespace TextDomain

/-- A call on a draft: a report about a token or a replacement of it. -/
inductive Call where
  | report (position : Nat) (message code : Bytes)
  | replace (position : Nat) (text : Bytes)
  deriving DecidableEq, Repr

namespace Call

def op : Call → Draft.Op
  | report position message code => .report position message code
  | replace position text => .replace position text

/-- The call is a report about the token at a position. -/
def reports (position : Nat) : Call → Bool
  | report p _ _ => p == position
  | replace _ _ => false

/-- The text that the call puts in place of the token at a position. -/
def text? (position : Nat) : Call → Option Bytes
  | report _ _ _ => none
  | replace p text => if p = position then some text else none

theorem text?_replace_self (position : Nat) (text : Bytes) :
    (replace position text).text? position = some text :=
  if_pos rfl

theorem text?_replace_of_ne {p position : Nat} (h : p ≠ position) (text : Bytes) :
    (replace p text).text? position = none :=
  if_neg h

end Call

namespace Draft

/-- The calls that an operation makes on a draft with these tokens. -/
def Op.calls (tokens : List Lexeme) (accepting : Bool) : Op → List Call
  | report position message code => [.report position message code]
  | replace position text => [.replace position text]
  | rename r =>
    (r.findings tokens).flatMap fun f =>
      .report f.position (r.message f.function) Renaming.issueCode ::
        if accepting then [.replace f.position f.replacement] else []

/-- The draft after some operations. -/
def after (d : Draft) (ops : List Op) : Draft :=
  ops.foldl (fun d op => (d.perform op).2) d

/-- A draft with nothing to log. -/
def silent (d : Draft) : Draft :=
  { d with events := [] }

variable {d : Draft}

@[simp] theorem after_nil (d : Draft) : d.after [] = d := rfl

@[simp] theorem after_cons (d : Draft) (op : Op) (ops : List Op) :
    d.after (op :: ops) = (d.perform op).2.after ops := rfl

theorem after_append (d : Draft) (ops ops' : List Op) :
    d.after (ops ++ ops') = (d.after ops).after ops' :=
  List.foldl_append

/-! ## What no operation changes -/

/-- `d'` is `d` with other issues, replacements and log. -/
def Becomes (d d' : Draft) : Prop :=
  ∃ complaints marks events,
    d' = { d with complaints := complaints, marks := marks, events := events }

theorem Becomes.refl (d : Draft) : d.Becomes d :=
  ⟨_, _, _, rfl⟩

theorem Becomes.trans {d₁ d₂ d₃ : Draft} (h : d₁.Becomes d₂) (h' : d₂.Becomes d₃) :
    d₁.Becomes d₃ := by
  obtain ⟨_, _, _, rfl⟩ := h
  obtain ⟨_, _, _, rfl⟩ := h'
  exact ⟨_, _, _, rfl⟩

theorem becomes_report (d : Draft) (position : Nat) (message code : Bytes) :
    d.Becomes (d.report position message code).2 := by
  unfold report
  split <;> exact ⟨_, _, _, rfl⟩

theorem becomes_replace (d : Draft) (position : Nat) (text : Bytes) :
    d.Becomes (d.replace position text) := by
  unfold replace
  split <;> exact ⟨_, _, _, rfl⟩

theorem becomes_reportOne (r : Renaming) (d : Draft) (f : Finding) :
    d.Becomes (r.reportOne d f) := by
  have hreport := d.becomes_report f.position (r.message f.function) Renaming.issueCode
  unfold Renaming.reportOne
  split
  · rename_i d' heq
    obtain rfl : (d.report f.position (r.message f.function) Renaming.issueCode).2 = d' :=
      congrArg Prod.snd heq
    exact hreport.trans (becomes_replace _ _ _)
  · rename_i d' heq
    obtain rfl : (d.report f.position (r.message f.function) Renaming.issueCode).2 = d' :=
      congrArg Prod.snd heq
    exact hreport

theorem becomes_reportAll (r : Renaming) (d : Draft) (fs : List Finding) :
    d.Becomes (fs.foldl r.reportOne d) := by
  induction fs generalizing d with
  | nil => exact Becomes.refl d
  | cons f fs ih => exact (becomes_reportOne r d f).trans (ih _)

theorem becomes_perform (d : Draft) (op : Op) : d.Becomes (d.perform op).2 := by
  cases op with
  | report position message code => exact d.becomes_report position message code
  | replace position text => exact d.becomes_replace position text
  | rename r =>
    obtain ⟨_, _, _, h⟩ := becomes_reportAll r
      { d with events := d.events ++ (r.findings d.lexemes).map Finding.event }
      (r.findings d.lexemes)
    exact ⟨_, _, _, h⟩

theorem becomes_after (d : Draft) (ops : List Op) : d.Becomes (d.after ops) := by
  induction ops generalizing d with
  | nil => exact Becomes.refl d
  | cons op ops ih => exact (d.becomes_perform op).trans (ih _)

@[simp] theorem tokens_after (d : Draft) (ops : List Op) : (d.after ops).tokens = d.tokens := by
  obtain ⟨_, _, _, h⟩ := d.becomes_after ops
  rw [h]

@[simp] theorem accepting_after (d : Draft) (ops : List Op) :
    (d.after ops).accepting = d.accepting := by
  obtain ⟨_, _, _, h⟩ := d.becomes_after ops
  rw [h]

@[simp] theorem issueAt_after (d : Draft) (ops : List Op) : (d.after ops).issueAt = d.issueAt := by
  obtain ⟨_, _, _, h⟩ := d.becomes_after ops
  rw [h]
  rfl

/-! ## Operations as calls -/

theorem silent_perform_op (d : Draft) (call : Call) :
    (d.perform call.op).2.silent = (d.silent.perform call.op).2.silent := by
  cases call with
  | report position message code =>
    change (d.report position message code).2.silent =
      (d.silent.report position message code).2.silent
    unfold report
    cases htoken : d.tokens[position]? with
    | none => simp only [silent, htoken]
    | some token =>
      simp only [silent, htoken]
      rfl
  | replace position text =>
    change (d.replace position text).silent = (d.silent.replace position text).silent
    unfold replace
    by_cases hposition : position < d.tokens.size
    · simp only [silent, hposition, if_true]
    · simp only [silent, hposition, if_false]

/-- What is logged has no influence on anything else. -/
theorem silent_after_map_op (d : Draft) (calls : List Call) :
    (d.after (calls.map Call.op)).silent = (d.silent.after (calls.map Call.op)).silent := by
  induction calls generalizing d with
  | nil => rfl
  | cons call calls ih =>
    rw [List.map_cons, after_cons, after_cons, ih, silent_perform_op, ← ih]

theorem silent_after_congr {d d' : Draft} (h : d.silent = d'.silent) (calls : List Call) :
    (d.after (calls.map Call.op)).silent = (d'.after (calls.map Call.op)).silent := by
  rw [silent_after_map_op, h, ← silent_after_map_op]

/-- A finding is reported, and replaced if the draft accepts that. -/
theorem reportOne_eq_after (r : Renaming) (d : Draft) (f : Finding) : r.reportOne d f =
    d.after ((.report f.position (r.message f.function) Renaming.issueCode ::
      if d.accepting then [.replace f.position f.replacement] else []).map Call.op) := by
  cases haccept : d.accepting with
  | true => exact reportOne_eq r haccept f
  | false =>
    have hhost : Host.report f.position (r.message f.function) Renaming.issueCode d =
        d.report f.position (r.message f.function) Renaming.issueCode := rfl
    have hanswer : (d.report f.position (r.message f.function) Renaming.issueCode).1 = false := by
      unfold report
      split
      · exact haccept
      · rfl
    rw [Renaming.reportOne, hhost]
    split
    · rename_i heq
      rw [heq] at hanswer
      cases hanswer
    · rename_i heq
      exact (congrArg Prod.snd heq).symm

theorem reportAll_eq_after (r : Renaming) (d : Draft) (fs : List Finding) :
    fs.foldl r.reportOne d = d.after ((fs.flatMap fun f =>
      .report f.position (r.message f.function) Renaming.issueCode ::
        if d.accepting then [.replace f.position f.replacement] else []).map Call.op) := by
  induction fs generalizing d with
  | nil => rfl
  | cons f fs ih =>
    rw [List.foldl_cons, ih, reportOne_eq_after, accepting_after, List.flatMap_cons,
      List.map_append, after_append]

/-- An operation does what its calls do. -/
theorem silent_perform (d : Draft) (op : Op) : (d.perform op).2.silent =
    (d.after ((op.calls d.lexemes d.accepting).map Call.op)).silent := by
  cases op with
  | report position message code => rfl
  | replace position text => rfl
  | rename r =>
    -- the findings are logged before the first of them is reported
    let logged := { d with events := d.events ++ (r.findings d.lexemes).map Finding.event }
    have hrename : (d.perform (.rename r)).2 =
        (r.findings d.lexemes).foldl r.reportOne logged := rfl
    have hlogged : logged.silent = d.silent := rfl
    rw [hrename, reportAll_eq_after]
    exact silent_after_congr hlogged _

/-- Operations do what their calls do, one after the other. -/
theorem silent_after (d : Draft) (ops : List Op) : (d.after ops).silent =
    (d.after ((ops.flatMap (Op.calls d.lexemes d.accepting)).map Call.op)).silent := by
  induction ops generalizing d with
  | nil => rfl
  | cons op ops ih =>
    obtain ⟨_, _, _, hop⟩ := d.becomes_perform op
    have hlexemes : (d.perform op).2.lexemes = d.lexemes := by rw [hop]; rfl
    have haccepting : (d.perform op).2.accepting = d.accepting := by rw [hop]
    rw [after_cons, ih, hlexemes, haccepting, List.flatMap_cons, List.map_append, after_append]
    exact silent_after_congr (d.silent_perform op) _

end Draft

/-! ## What goes on record -/

/-- The text that goes on record with a report about a position, given the calls made after the
report: the last one put in place of the token there before it is reported again. -/
def recorded (position : Nat) (later : List Call) : Bytes :=
  ((later.takeWhile fun call => !call.reports position).filterMap
    (Call.text? position)).getLastD []

section

variable {position : Nat} {later : List Call}

/-- Nothing that is called after the next report goes on record any more. -/
theorem recorded_append_of_any (h : later.any (Call.reports position) = true)
    (more : List Call) : recorded position (later ++ more) = recorded position later := by
  rw [recorded, List.takeWhile_append, if_neg, recorded]
  intro hlength
  have hall := (List.takeWhile_prefix fun call : Call => !call.reports position).eq_of_length
    hlength
  obtain ⟨call, hcall, hreports⟩ := List.any_eq_true.mp h
  have hnot := List.takeWhile_eq_self_iff.mp hall call hcall
  simp [hreports] at hnot

theorem recorded_append_of_not_any (h : later.any (Call.reports position) = false)
    (more : List Call) : recorded position (later ++ more) =
      (later.filterMap (Call.text? position) ++
        (more.takeWhile fun call => !call.reports position).filterMap
          (Call.text? position)).getLastD [] := by
  rw [recorded, List.takeWhile_append_of_pos, List.filterMap_append]
  intro call hcall
  simpa using List.any_eq_false.mp h call hcall

/-- A call that does not replace the token leaves the record as it is. -/
theorem recorded_append_of_none {call : Call} (hcall : call.text? position = none) :
    recorded position (later ++ [call]) = recorded position later := by
  cases h : later.any (Call.reports position) with
  | true => exact recorded_append_of_any h _
  | false =>
    have hnone : ([call].takeWhile fun call => !call.reports position).filterMap
        (Call.text? position) = [] := by
      rw [List.takeWhile_cons]
      split <;> simp [hcall]
    have hself := recorded_append_of_not_any h []
    rw [List.append_nil] at hself
    rw [recorded_append_of_not_any h, hself, hnone]
    rfl

theorem recorded_append_replace (h : later.any (Call.reports position) = false) (text : Bytes) :
    recorded position (later ++ [.replace position text]) = text := by
  have hsome : ([Call.replace position text].takeWhile fun call =>
      !call.reports position).filterMap (Call.text? position) = [text] := by
    simp [Call.reports, Call.text?]
  rw [recorded_append_of_not_any h, hsome]
  simp

end

theorem recordReplacement_append (position : Nat) (text : Bytes) (cs cs' : List Complaint) :
    recordReplacement position text (cs ++ cs') =
      if cs.any (·.position == position) then recordReplacement position text cs ++ cs'
      else cs ++ recordReplacement position text cs' := by
  induction cs with
  | nil => rfl
  | cons c cs ih =>
    simp only [List.cons_append, recordReplacement, List.any_cons, ih]
    by_cases hc : c.position = position
    · simp [hc]
    · by_cases hcs : cs.any (·.position == position) = true
      · simp [hc, hcs]
      · simp [hc, hcs]

namespace Draft

variable {d : Draft}

/-- The complaints that some calls make, in order, with the texts that go on record with them. -/
def complaintsOf (d : Draft) : List Call → List Complaint
  | [] => []
  | .report position message code :: later =>
    (d.tokens[position]?.map fun token => Complaint.mk position
      { d.issueAt token message code with replacement := recorded position later }).toList ++
      d.complaintsOf later
  | .replace _ _ :: later => d.complaintsOf later

theorem any_complaintsOf {position : Nat} (h : position < d.tokens.size) (calls : List Call) :
    (d.complaintsOf calls).any (·.position == position) = calls.any (Call.reports position) := by
  induction calls with
  | nil => rfl
  | cons call calls ih =>
    cases call with
    | replace p text => simpa [complaintsOf, Call.reports] using ih
    | report p message code =>
      rw [complaintsOf, List.any_append, ih, List.any_cons, Call.reports]
      by_cases hp : p = position
      · subst hp
        simp [h]
      · cases d.tokens[p]? <;> simp [hp]

theorem complaintsOf_append_report (calls : List Call) (position : Nat) (message code : Bytes) :
    d.complaintsOf (calls ++ [.report position message code]) = d.complaintsOf calls ++
      (d.tokens[position]?.map fun token =>
        Complaint.mk position (d.issueAt token message code)).toList := by
  induction calls with
  | nil => exact List.append_nil _
  | cons call calls ih =>
    cases call with
    | replace p text => exact ih
    | report p m c =>
      rw [List.cons_append, complaintsOf, ih, complaintsOf, recorded_append_of_none rfl,
        List.append_assoc]

theorem complaintsOf_append_replace_of_le {position : Nat} (h : d.tokens.size ≤ position)
    (calls : List Call) (text : Bytes) :
    d.complaintsOf (calls ++ [.replace position text]) = d.complaintsOf calls := by
  induction calls with
  | nil => rfl
  | cons call calls ih =>
    cases call with
    | replace p _ => exact ih
    | report p message code =>
      rw [List.cons_append, complaintsOf, ih, complaintsOf]
      cases htoken : d.tokens[p]? with
      | none => rfl
      | some token =>
        obtain ⟨hp, -⟩ := Array.getElem?_eq_some_iff.mp htoken
        rw [recorded_append_of_none (Call.text?_replace_of_ne (by omega) text)]

/-- A replacement goes on record with the last complaint about its token. -/
theorem complaintsOf_append_replace {position : Nat} (h : position < d.tokens.size)
    (calls : List Call) (text : Bytes) : d.complaintsOf (calls ++ [.replace position text]) =
      (recordReplacement position text (d.complaintsOf calls).reverse).reverse := by
  induction calls with
  | nil => rfl
  | cons call calls ih =>
    cases call with
    | replace p _ => exact ih
    | report p message code =>
      rw [List.cons_append, complaintsOf, ih, complaintsOf]
      cases htoken : d.tokens[p]? with
      | none => rfl
      | some token =>
        have hlater := any_complaintsOf h calls
        have hsplit := recordReplacement_append position text (d.complaintsOf calls).reverse
        rw [List.any_reverse, hlater] at hsplit
        simp only [Option.map_some, Option.toList_some, List.singleton_append, List.reverse_cons,
          hsplit]
        -- the search starts with the newest complaint, so this one is reached only if none of the
        -- later calls reports the token again
        cases hany : calls.any (Call.reports position) with
        | true =>
          have hrecorded : recorded p (calls ++ [.replace position text]) = recorded p calls := by
            by_cases hp : position = p
            · exact recorded_append_of_any (hp ▸ hany) _
            · exact recorded_append_of_none (Call.text?_replace_of_ne hp text)
          simp [hrecorded]
        | false =>
          have hrest := hsplit []
          rw [List.append_nil, hany] at hrest
          by_cases hp : position = p
          · subst hp
            rw [recorded_append_replace hany]
            simp [hrest, recordReplacement]
          · rw [recorded_append_of_none (Call.text?_replace_of_ne hp text)]
            simp [hrest, recordReplacement, Ne.symm hp]

/-- One more call, on a draft that has only the complaints of the calls before. -/
theorem complaints_perform_op {d' : Draft} {calls : List Call} (htokens : d'.tokens = d.tokens)
    (hissue : d'.issueAt = d.issueAt) (h : d'.complaints = (d.complaintsOf calls).reverse)
    (call : Call) :
    (d'.perform call.op).2.complaints = (d.complaintsOf (calls ++ [call])).reverse := by
  cases call with
  | report position message code =>
    change (d'.report position message code).2.complaints = _
    rw [complaintsOf_append_report, report, htokens, hissue]
    cases d.tokens[position]? with
    | none => simpa using h
    | some token => simp [h]
  | replace position text =>
    change (d'.replace position text).complaints = _
    rw [replace, htokens]
    split
    · rename_i hposition
      rw [complaintsOf_append_replace hposition, List.reverse_reverse, h]
    · rename_i hposition
      rw [complaintsOf_append_replace_of_le (Nat.le_of_not_lt hposition), h]

/-- The complaints after some calls are those of the calls. -/
theorem complaints_after (hd : d.complaints = []) (calls : List Call) :
    (d.after (calls.map Call.op)).complaints = (d.complaintsOf calls).reverse := by
  induction calls using List.reverseRecOn with
  | nil => exact hd
  | append_singleton calls call ih =>
    rw [List.map_append, after_append]
    exact complaints_perform_op (d.tokens_after _) (d.issueAt_after _) ih call

/-- The issue that the call at a step makes, with the text that goes on record with it. -/
def issueOfStep? (d : Draft) (calls : List Call) (step : Nat) : Option Issue :=
  match calls[step]? with
  | some (.report position message code) =>
    d.tokens[position]?.map fun token =>
      { d.issueAt token message code with
        replacement := recorded position (calls.drop (step + 1)) }
  | _ => none

theorem map_issue_complaintsOf (d : Draft) (calls : List Call) :
    (d.complaintsOf calls).map Complaint.issue =
      (List.range calls.length).filterMap (d.issueOfStep? calls) := by
  induction calls with
  | nil => rfl
  | cons call calls ih =>
    have hshift : d.issueOfStep? (call :: calls) ∘ Nat.succ = d.issueOfStep? calls := rfl
    rw [List.length_cons, List.range_succ_eq_map, List.filterMap_cons, List.filterMap_map, hshift,
      ← ih]
    cases call with
    | replace position text => rfl
    | report position message code =>
      rw [complaintsOf, List.map_append]
      cases htoken : d.tokens[position]? <;> simp [issueOfStep?, htoken]

/-- A report is answered by what the draft accepts, unless it is about no token, which is only
logged. -/
theorem answer_report (d : Draft) (position : Nat) (message code : Bytes) :
    let reported := d.report position message code
    if position < d.tokens.size then reported.1 = d.accepting
    else reported.1 = false ∧ reported.2.silent = d.silent := by
  intro reported
  split
  · rename_i hposition
    simp only [reported, report, Array.getElem?_eq_getElem hposition]
  · rename_i hposition
    simp only [reported, report, Array.getElem?_eq_none (Nat.le_of_not_lt hposition)]
    exact ⟨trivial, rfl⟩

/-- Whatever is done to a draft, each issue is that of one report about a token, in the order of the
reports. On record with it is the last text that was put in place of the token after the report and
before the next one about the same token. -/
theorem issues_after (source : Source) (accepting : Bool) (rule : Bytes) (ops : List Op) :
    let d := ofSource source accepting rule
    let calls := ops.flatMap (Op.calls source.lexemes accepting)
    (d.after ops).silent = (d.after (calls.map Call.op)).silent ∧
    (∀ (before : List Op) (position : Nat) (message code : Bytes),
      let reported := (d.after before).report position message code
      if position < source.tokens.length then reported.1 = accepting
      else reported.1 = false ∧ reported.2.silent = (d.after before).silent) ∧
    (d.after ops).issues = (List.range calls.length).filterMap (d.issueOfStep? calls) := by
  intro d calls
  have hcalls : (d.after ops).silent = (d.after (calls.map Call.op)).silent := d.silent_after ops
  refine ⟨hcalls, fun before position message code => ?_, ?_⟩
  · have hanswer := (d.after before).answer_report position message code
    have hsize : (d.after before).tokens.size = source.tokens.length := by
      rw [tokens_after]
      exact List.size_toArray
    rwa [hsize, accepting_after] at hanswer
  · have hcomplaints : (d.after ops).complaints = (d.complaintsOf calls).reverse :=
      (congrArg complaints hcalls :).trans (complaints_after rfl calls)
    rw [issues, hcomplaints, List.reverse_reverse, map_issue_complaintsOf]

/-- Three reports about one literal, the second of them by a rule, and one about no token. -/
example :
    let d := ofSource ⟨ascii "a.php", ascii "<?php __('a')"⟩ true []
    let ops := [.report 3 [] [], .replace 3 (ascii "x"), .rename ⟨ascii "a", ascii "b"⟩,
      .replace 3 (ascii "y"), .report 9 [] [], .report 3 [] []]
    (d.after ops).issues.map Issue.replacement = ["x", "y", ""].map ascii := by
  decide +kernel

end Draft

end TextDomain
