import SqlHighlight.Sql.Piece

namespace SqlHighlight.Sql

section

variable (ns ms : List Node)

@[simp] theorem Node.pieces_leaf (l : Leaf) (text : String) :
    (Node.leaf l text).pieces = l.pieces text := rfl

@[simp] theorem Node.pieces_block (b : Block) : (Node.block b ns).pieces = piecesOfAll ns := rfl

@[simp] theorem Node.pieces_group (g : Group) (flawed : Bool) :
    (Node.group g ns flawed).pieces = ⟨.plain, "("⟩ :: piecesOfAll ns ++ [⟨.plain, ")"⟩] := rfl

@[simp] theorem piecesOfAll_nil : piecesOfAll [] = [] := rfl

@[simp] theorem piecesOfAll_cons (n : Node) :
    piecesOfAll (n :: ns) = n.pieces ++ piecesOfAll ns := rfl

@[simp] theorem piecesOfAll_append : piecesOfAll (ns ++ ms) = piecesOfAll ns ++ piecesOfAll ms := by
  induction ns with
  | nil => rfl
  | cons n ns ih => simp [ih]

end

theorem toList_render (ps : List Piece) :
    (render ps).toList = ps.flatMap fun p => p.text.toList := by
  simp only [render, String.toList_join, List.flatMap_map]

theorem flatMap_pieceOf (c : Category) (text : String) :
    ((Piece.of c text).flatMap fun p => p.text.toList) = text.toList := by
  unfold Piece.of
  split
  next h => simpa using h
  next => simp

def textOfAll (ns : List Node) : List Char := (piecesOfAll ns).flatMap fun p => p.text.toList

section

variable (ns ms : List Node)

@[simp] theorem textOfAll_nil : textOfAll [] = [] := rfl

@[simp] theorem textOfAll_append : textOfAll (ns ++ ms) = textOfAll ns ++ textOfAll ms := by
  simp [textOfAll]

@[simp] theorem textOfAll_leaf (l : Leaf) (body : List Char) :
    textOfAll (.leaf l (String.ofList body) :: ns) = l.wrap body ++ textOfAll ns := by
  simp [textOfAll, Leaf.pieces, flatMap_pieceOf]

@[simp] theorem textOfAll_group (g : Group) (flawed : Bool) :
    textOfAll (.group g ms flawed :: ns) = '(' :: textOfAll ms ++ ')' :: textOfAll ns := by
  simp [textOfAll]

@[simp] theorem textOfAll_block (b : Block) :
    textOfAll (.block b ms :: ns) = textOfAll ms ++ textOfAll ns := by
  simp [textOfAll]

end

end SqlHighlight.Sql
