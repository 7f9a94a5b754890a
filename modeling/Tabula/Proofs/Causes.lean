import Tabula.Proofs.Documents

/-!
# Errors and their causes

An error may have another one inside, which may have another one inside, and at the end there may be
a cause that is not an error of a table. Every kind of error that has a cause puts the text of the
cause behind its own, and nothing behind that. So the texts of all causes, however deep they are,
are tails of the text that is shown, and can be taken off it.

A context says where an error came up and changes nothing else: what a program goes by, the code,
the missing names and whether an encoder was not fitted, is that of the error inside, under any
number of contexts. This is so for contexts only. Whatever else is put around an error answers for
itself.

* `Error.exists_lead_of_mem_chain` — every cause is a tail of the text.
* `Error.inContexts` — the error in contexts, one after the other, and
  `Error.transparent_inContexts` — what it shares with the error inside.
* `Error.parse?_json` — what is read back from the serialised form.
* `Error.causes_and_contexts` — all of this, for every error.
-/

namespace Tabula.Error

variable {lead cause : String} {texts : List String}

/-! ### Causes -/

/-- Behind its own text an error has that of its cause, and with it the tails of that. -/
theorem exists_lead_of_mem_cons (h : ∀ text ∈ texts, ∃ lead, cause = lead ++ text) :
    ∀ text ∈ cause :: texts, ∃ lead', lead ++ cause = lead' ++ text := by
  rw [List.forall_mem_cons]
  refine ⟨⟨lead, rfl⟩, fun text htext => ?_⟩
  obtain ⟨lead', rfl⟩ := h text htext
  exact ⟨lead ++ lead', String.append_assoc.symm⟩

/-- The text of every cause stands at the end of the text of the error. -/
theorem exists_lead_of_mem_chain (e : Error) :
    ∀ text ∈ e.chain, ∃ lead, e.message = lead ++ text := by
  induction e with
  -- an error inside: its causes are tails of its text, which is a tail of the whole text
  | fitFailed column e ih => exact exists_lead_of_mem_cons ih
  | fileTable action format path e ih => exact exists_lead_of_mem_cons ih
  | context text e ih => exact exists_lead_of_mem_cons ih
  -- a last cause
  | file action format path fault => exact List.forall_mem_singleton.2 ⟨_, rfl⟩
  | invalidOptions fault => exact List.forall_mem_singleton.2 ⟨_, rfl⟩
  | engine text => exact List.forall_mem_singleton.2 ⟨_, rfl⟩
  -- no cause
  | _ => exact fun text htext => absurd htext List.not_mem_nil

/-! ### Contexts -/

/-- The error in contexts, the first of which is put around it first. -/
def inContexts (e : Error) (contexts : List String) : Error :=
  contexts.foldl (fun e text => context text e) e

theorem inContexts_cons (e : Error) (text : String) (contexts : List String) :
    e.inContexts (text :: contexts) = (context text e).inContexts contexts := rfl

/-- What is shown in front of an error in contexts, the outermost first. -/
def leads (contexts : List String) : String := String.join (contexts.reverse.map (· ++ ": "))

theorem leads_cons (text : String) (contexts : List String) :
    leads (text :: contexts) = leads contexts ++ (text ++ ": ") := by
  simp [leads, String.join_append]

/-- Code and text are read back from the serialised form. -/
theorem parse?_json (e : Error) : Json.parse? e.json = some (.object
    [(some "code", .string (some e.code)), (some "message", .string (some e.message))]) := by
  -- the serialised form is the record of two texts
  have hcode : Json.quote "code" = ['"', 'c', 'o', 'd', 'e', '"'] := by decide
  have hmessage : Json.quote "message" = ['"', 'm', 'e', 's', 's', 'a', 'g', 'e', '"'] := by decide
  have hjson : e.json.toList =
      Records.record ["code", "message"] [.string e.code, .string e.message] := by
    simp [json, Records.record, Records.valueText, hcode, hmessage]
  have hfits : Records.Fits ["code", "message"] [.string e.code, .string e.message] :=
    ⟨rfl, by simp [Records.Exact, Value.columnType?]⟩
  rw [Json.parse?, hjson, Records.parseChars?_record (List.cons_ne_nil _ _) hfits]
  rfl

/-- The error `e'` is for a program the same as `e`: it differs in what is shown in front of it, and
in the causes that come before it. -/
structure Transparent (e e' : Error) (contexts : List String) : Prop where
  code_eq : e'.code = e.code
  isNotFitted_eq : e'.isNotFitted = e.isNotFitted
  missingNames_eq : e'.missingNames = e.missingNames
  message_eq : e'.message = leads contexts ++ e.message
  length_chain : e'.chain.length = e.chain.length + contexts.length
  suffix_chain : e.message :: e.chain <:+ e'.message :: e'.chain

theorem transparent_inContexts (e : Error) (contexts : List String) :
    e.Transparent (e.inContexts contexts) contexts := by
  induction contexts generalizing e with
  | nil =>
    have hmessage : e.message = leads [] ++ e.message := String.empty_append.symm
    exact ⟨rfl, rfl, rfl, hmessage, rfl, List.suffix_rfl⟩
  | cons text contexts ih =>
    -- the first context is seen through, and the others are as they are around any error
    obtain ⟨hcode, hfitted, hmissing, hmessage, hlength, hchain⟩ := ih (context text e)
    rw [inContexts_cons]
    refine ⟨hcode, hfitted, hmissing, ?_, ?_, ?_⟩
    · calc ((context text e).inContexts contexts).message
          = leads contexts ++ (text ++ ": " ++ e.message) := hmessage
        _ = leads (text :: contexts) ++ e.message := by
          rw [leads_cons]
          exact String.append_assoc.symm
    · rw [hlength, List.length_cons, chain, List.length_cons]
      omega
    · exact (List.suffix_cons _ _).trans hchain

/-- It does not matter whether the error or a result with it is put into the contexts. -/
theorem foldl_within_error {α : Type} (e : Error) (contexts : List String) :
    contexts.foldl (fun r text => within text r) (.error e : Except Error α) =
      .error (e.inContexts contexts) := by
  induction contexts generalizing e with
  | nil => rfl
  | cons text contexts ih => exact ih (context text e)

/-! ### Other wrappers -/

/-- The error answers for itself, whatever is inside. -/
structure Closed (e : Error) (code : String) (unfitted : Bool) : Prop where
  code_eq : e.code = code
  isNotFitted_eq : e.isNotFitted = unfitted
  missingNames_eq : e.missingNames = []

/-- Every cause of an error, however deep it is, stands at the end of the text of the error. In any
number of contexts an error is the same for a program, has so many causes more, and is shown and
serialised with the contexts in front, the outermost first. An encoder that is not fitted and a file
that cannot be read or written are reported as such, whatever the reason is. -/
theorem causes_and_contexts (e : Error) :
    (∀ text ∈ e.chain, ∃ lead, e.message = lead ++ text) ∧
    (∀ contexts : List String, e.Transparent (e.inContexts contexts) contexts ∧
      (∀ α : Type, contexts.foldl (fun r text => within text r) (.error e : Except Error α) =
        .error (e.inContexts contexts)) ∧
      Json.parse? (e.inContexts contexts).json = some (.object
        [(some "code", .string (some e.code)),
          (some "message", .string (some (leads contexts ++ e.message)))])) ∧
    (∀ column, Closed (.notFitted column) "NOT_FITTED" true ∧
      Closed (.fitFailed column e) "NOT_FITTED" true) ∧
    ∀ format path,
      (Closed (.fileTable .read format path e) "READ_FAILED" false ∧
        ∀ fault, Closed (.file .read format path fault) "READ_FAILED" false) ∧
      Closed (.fileTable .write format path e) "WRITE_FAILED" false ∧
        ∀ fault, Closed (.file .write format path fault) "WRITE_FAILED" false := by
  refine ⟨exists_lead_of_mem_chain e, fun contexts => ?_, fun column => ?_, fun format path => ?_⟩
  · have htransparent := transparent_inContexts e contexts
    refine ⟨htransparent, fun α => foldl_within_error e contexts, ?_⟩
    rw [parse?_json, htransparent.code_eq, htransparent.message_eq]
  · exact ⟨⟨rfl, rfl, rfl⟩, ⟨rfl, rfl, rfl⟩⟩
  · exact ⟨⟨⟨rfl, rfl, rfl⟩, fun fault => ⟨rfl, rfl, rfl⟩⟩, ⟨rfl, rfl, rfl⟩,
      fun fault => ⟨rfl, rfl, rfl⟩⟩

/-- The refusal by the storage is the tail of the text of an error three levels above it, and two
contexts come in front of the text of a missing column. -/
theorem causes_and_contexts_nested :
    (∃ lead, (fitFailed "a" (context "Reading" (fileTable .read "CSV" "in.csv"
      (engine "boom")))).message = lead ++ "boom") ∧
    ((missingColumns ["x"]).inContexts ["first", "second"]).message =
      "second: first: Could not find column(s) 'x'" ∧
    ((missingColumns ["x"]).inContexts ["first", "second"]).missingNames = ["x"] := by
  obtain ⟨hcauses, -⟩ := causes_and_contexts (fitFailed "a" (context "Reading"
    (fileTable .read "CSV" "in.csv" (engine "boom"))))
  obtain ⟨-, hcontexts, -⟩ := causes_and_contexts (missingColumns ["x"])
  obtain ⟨htransparent, -⟩ := hcontexts ["first", "second"]
  refine ⟨hcauses "boom" (by simp [chain]), ?_, htransparent.missingNames_eq⟩
  rw [htransparent.message_eq]
  decide

end Tabula.Error
