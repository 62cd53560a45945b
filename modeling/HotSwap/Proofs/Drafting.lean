import HotSwap.Assembly
import Mathlib.Data.List.Induction

/-! # Drafts of code

A draft holds the pieces of all statements in their order, and they are as long as the code
that comes of them. When a gap is filled, the label that it names has the place where it was
placed last, which is the length of the code of the statements before. -/

namespace HotSwap

namespace Piece

variable {places : List (Label × Nat)} {pieces : List Piece} {bytes : Bytes}

/-- Whether bytes are what pieces come to, when labels have the given places. -/
inductive Fills (places : List (Label × Nat)) : List Piece → Bytes → Prop
  | nil : Fills places [] []
  | bytes (content : Bytes) {pieces : List Piece} {rest : Bytes}
      (later : Fills places pieces rest) : Fills places (.bytes content :: pieces) (content ++ rest)
  | gap {width origin place : Nat} {target : Label} {pieces : List Piece} {rest : Bytes}
      (placed : places.lookup target = some place)
      (fits : Bytes.FitsInt width ((place : Int) - origin)) (later : Fills places pieces rest) :
      Fills places (.gap width origin target :: pieces)
        (Bytes.ofInt width ((place : Int) - origin) ++ rest)

theorem Fills.cons {piece : Piece} {chunk : Bytes} (filled : piece.fill places = .ok chunk)
    (later : Fills places pieces bytes) : Fills places (piece :: pieces) (chunk ++ bytes) := by
  cases piece with
  | bytes content =>
      cases filled
      exact .bytes _ later
  | gap width origin target =>
      simp only [fill] at filled
      split at filled
      · cases filled
      · next place placed =>
        split at filled
        · next fits =>
          cases filled
          exact .gap placed fits later
        · cases filled

theorem fills_of_mapM {chunks : List Bytes} (filled : pieces.mapM (fill places) = .ok chunks) :
    Fills places pieces chunks.flatten := by
  induction pieces generalizing chunks with
  | nil =>
      cases filled
      exact .nil
  | cons piece pieces ih =>
      rw [List.mapM_cons] at filled
      cases first : piece.fill places with
      | error cause =>
          rw [first] at filled
          cases filled
      | ok chunk =>
          cases rest : pieces.mapM (fill places) with
          | error cause =>
              rw [first, rest] at filled
              cases filled
          | ok later =>
              rw [first, rest] at filled
              cases filled
              exact .cons first (ih rest)

theorem Fills.length_eq (fills : Fills places pieces bytes) : bytes.length = totalSize pieces := by
  induction fills with
  | nil => rfl
  | bytes content later ih =>
      rw [List.length_append, ih]
      rfl
  | gap placed fits later ih =>
      rw [List.length_append, Bytes.length_ofInt, ih]
      rfl

theorem Fills.of_append {front back : List Piece} (fills : Fills places (front ++ back) bytes) :
    ∃ first second, Fills places front first ∧ Fills places back second ∧
      bytes = first ++ second := by
  induction front generalizing bytes with
  | nil => exact ⟨[], bytes, .nil, fills, rfl⟩
  | cons piece front ih =>
      cases fills with
      | bytes content later =>
          obtain ⟨first, second, fillsFront, fillsBack, rfl⟩ := ih later
          exact ⟨_, second, .bytes content fillsFront, fillsBack, (List.append_assoc ..).symm⟩
      | gap placed fits later =>
          obtain ⟨first, second, fillsFront, fillsBack, rfl⟩ := ih later
          exact ⟨_, second, .gap placed fits fillsFront, fillsBack, (List.append_assoc ..).symm⟩

theorem totalSize_append (front back : List Piece) :
    totalSize (front ++ back) = totalSize front + totalSize back := by
  induction front with
  | nil => exact (Nat.zero_add _).symm
  | cons piece front ih =>
      simp only [totalSize, List.cons_append, List.foldr_cons] at ih ⊢
      rw [ih, Nat.add_assoc]

end Piece

namespace Draft

variable {program : List Statement} {statement : Statement}

theorem ofStatements_concat (program : List Statement) (statement : Statement) :
    ofStatements (program ++ [statement]) = (ofStatements program).add statement := by
  rw [ofStatements, List.foldl_append]
  rfl

theorem pieces_add (draft : Draft) (statement : Statement) :
    (draft.add statement).pieces.reverse =
      draft.pieces.reverse ++ statement.pieces draft.length := by
  simp [add]

theorem length_ofStatements (program : List Statement) :
    (ofStatements program).length = Piece.totalSize (ofStatements program).pieces.reverse := by
  induction program using List.reverseRecOn with
  | nil => rfl
  | append_singleton program statement ih =>
      rw [ofStatements_concat, pieces_add, Piece.totalSize_append, ← ih]
      rfl

/-- The pieces of a draft that was finished come to the code. -/
theorem fills_of_finish {draft : Draft} {code : Bytes} (finished : draft.finish = .ok code) :
    Piece.Fills draft.places draft.pieces.reverse code := by
  rw [finish] at finished
  cases filled : draft.pieces.reverse.mapM (Piece.fill draft.places) with
  | error cause =>
      rw [filled] at finished
      cases finished
  | ok chunks =>
      rw [filled] at finished
      cases finished
      exact Piece.fills_of_mapM filled

/-- A label is where it was placed last. -/
theorem exists_of_lookup {label : Label} {place : Nat}
    (placed : (ofStatements program).places.lookup label = some place) :
    ∃ front back, program = front ++ .label label :: back ∧ .label label ∉ back ∧
      place = (ofStatements front).length := by
  -- the latest place is looked up first, so what comes last in the program is taken off first
  induction program using List.reverseRecOn with
  | nil => cases placed
  | append_singleton program statement ih =>
      rw [ofStatements_concat] at placed
      have earlier (other : statement ≠ .label label)
          (found : (ofStatements program).places.lookup label = some place) :
          ∃ front back, program ++ [statement] = front ++ .label label :: back ∧
            .label label ∉ back ∧ place = (ofStatements front).length := by
        obtain ⟨front, back, rfl, notLater, eq⟩ := ih found
        refine ⟨front, back ++ [statement], by simp, ?_, eq⟩
        rw [List.mem_append, List.mem_singleton]
        exact not_or.mpr ⟨notLater, Ne.symm other⟩
      cases statement with
      | label other =>
          simp only [add, List.lookup_cons] at placed
          split at placed
          · next same =>
            cases placed
            rw [beq_iff_eq] at same
            exact ⟨program, [], by rw [same], List.not_mem_nil, rfl⟩
          · next different =>
            refine earlier ?_ placed
            rintro ⟨⟩
            simp at different
      | _ => exact earlier nofun placed

end Draft

end HotSwap
