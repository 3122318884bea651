import ContainerPreview.Proofs.Sheet.Places
import ContainerPreview.Proofs.Sheet.Reread

/-!
# Reading what has been written

A style sheet that has been read can be written and read again.  What comes of that is the same
sheet if the text of every token stands for itself.  The name of a property is kept without its
escapes and written without them, so that it may be read as something else.
-/

namespace ContainerPreview

open Css

/-- What a sheet is read as is written as text that is read as the same sheet. -/
def ReadsBack (text : String) (source : Option String) : Prop :=
  ∀ root, readSheet text source = .ok root → readSheet root.css source = .ok root

variable {source : Option String}

/-- A sheet of restored nodes is read again from its text. -/
theorem exists_rereads_sheet {nodes : List Node}
    (restored : ∀ node ∈ nodes, Restored .sheet source node) :
    ∃ tokens,
      Rereads .sheet source nodes (Node.block source .sheet false nodes).css.toList tokens := by
  cases nodes with
  | nil => exact ⟨[], .nil⟩
  | cons node nodes =>
      rw [List.forall_mem_cons] at restored
      obtain ⟨gaps, body, first, isText, areGaps, begins, isFirst⟩ := restored.1 0
      obtain ⟨tokens, rereads⟩ := exists_rereads_entries 0 restored.2
      have isCss : (Node.block source .sheet false (node :: nodes)).css.toList =
          gaps ++ body ++ entries 0 nodes := by
        have whole := entries_eq 0 node nodes
        rw [entries, List.flatMap_cons, List.cons_append, isText] at whole
        exact (List.cons.inj whole).2.symm
      rw [isCss]
      exact ⟨_, (isFirst.indent begins areGaps).append rereads⟩

/-- A text that is cut into tokens which are read as some nodes is read as a sheet with those
nodes. -/
theorem Rereads.readSheet {nodes : List Node} {text : String} {tokens : List Token}
    (rereads : Rereads .sheet source nodes text.toList tokens) :
    readSheet text source = .ok (.block source .sheet false nodes) := by
  have isCut := rereads.cut []
  rw [List.append_nil, signsOf_nil, List.append_nil,
    ← preprocess_of_all_isTidy rereads.tidy] at isCut
  have isRead := rereads.read []
  rw [List.append_nil] at isRead
  have whole := readList_unplacedIn .sheet source .nothing tokens
  rw [isRead, ← unplacedIn_tokens rereads.flawless isCut, readList_unplacedIn] at whole
  have isList : readList .sheet source .nothing (Css.tokens text.toList) = .ok nodes := by
    cases isList : readList .sheet source .nothing (Css.tokens text.toList) with
    | error => rw [isList] at whole; cases whole
    | ok others =>
        rw [isList] at whole
        have same : others = nodes ++ [] := Except.ok.inj whole
        rw [same, List.append_nil]
  rw [ContainerPreview.readSheet, isList]
  rfl

/-- A text whose tokens stand for themselves is read, written and read again as the same sheet. -/
theorem readsBack_of_isCalmText {text : String} (calm : isCalmText text.toList)
    (source : Option String) : ReadsBack text source := by
  intro root isRead
  rw [readSheet] at isRead
  cases isList : readList .sheet source .nothing (tokens text.toList) with
  | error => rw [isList] at isRead; cases isRead
  | ok nodes =>
      rw [isList] at isRead
      cases isRead
      obtain ⟨tokens, rereads⟩ :=
        exists_rereads_sheet ((reads_of_readList isList).restored .nothing (areCalm_tokens calm))
      exact rereads.readSheet

/-- A sheet with most kinds of tokens and entries. -/
def variedText : String :=
  "@import url( a.css );@media (min-width:60em)\x7b/*b*/a:nth-child(2n+1)>b|c\x7bD:e !IMPORTANT;" ++
    "--f:calc(1px + 2%)\x7d\x7d g::h\x7bi:\"j\\201C\";k:U+4??,#l/.5m"

theorem readsBack_variedText :
    isCalmText variedText.toList ∧ (readSheet variedText none).isOk ∧ ReadsBack variedText none :=
  ⟨by decide +kernel, by decide +kernel, readsBack_of_isCalmText (by decide +kernel) none⟩

/-- A sheet with an escaped colon in the name of a property. -/
def escapedName : Node :=
  .block none .sheet false
    [.block none (.rule "a") false [.leaf none (.declaration ⟨"b:c", "d", false⟩)]]

/-- The escape is lost: written again, the name ends at its colon. -/
theorem not_readsBack : ¬ ∀ text source, ReadsBack text source := by
  intro readsBack
  have isRead : (readSheet "a\x7bb\\:c:d\x7d" none).toOption = some escapedName := by decide +kernel
  have again : (readSheet escapedName.css none).toOption ≠ some escapedName := by decide +kernel
  cases isSheet : readSheet "a\x7bb\\:c:d\x7d" none with
  | error => rw [isSheet] at isRead; cases isRead
  | ok root =>
      rw [isSheet] at isRead
      obtain rfl : root = escapedName := Option.some.inj isRead
      rw [readsBack _ _ escapedName isSheet] at again
      exact again rfl

end ContainerPreview
