import HostSheet.Sheet

set_option autoImplicit false

/-!
# Visiting rules and declarations

Style rules and declarations at every depth, in the order in which they stand in the text,
a rule in front of what is inside it: as lists, and changed one by one in their places.
-/

namespace HostSheet

namespace Node

mutual

/-- The selectors in a node. -/
def selectors : Node → List Text
  | rule head nodes _ => head.selector :: selectorsIn nodes
  | atBlock _ nodes _ => selectorsIn nodes
  | _ => []

/-- The selectors in nodes. -/
def selectorsIn : List Node → List Text
  | [] => []
  | n :: ns => n.selectors ++ selectorsIn ns

end

mutual

/-- The declarations in a node. -/
def declarations : Node → List Declaration
  | rule _ nodes _ => declarationsIn nodes
  | atBlock _ nodes _ => declarationsIn nodes
  | declaration d => [d]
  | _ => []

/-- The declarations in nodes. -/
def declarationsIn : List Node → List Declaration
  | [] => []
  | n :: ns => n.declarations ++ declarationsIn ns

end

mutual

/-- Change every selector in a node. -/
def mapSelectors (f : Text → Text) : Node → Node
  | rule head nodes ending =>
    rule { head with selector := f head.selector } (mapSelectorsIn f nodes) ending
  | atBlock head nodes ending => atBlock head (mapSelectorsIn f nodes) ending
  | n => n

/-- Change every selector in nodes. -/
def mapSelectorsIn (f : Text → Text) : List Node → List Node
  | [] => []
  | n :: ns => n.mapSelectors f :: mapSelectorsIn f ns

end

mutual

/-- Change every declaration in a node. -/
def mapDeclarations (f : Declaration → Declaration) : Node → Node
  | rule head nodes ending => rule head (mapDeclarationsIn f nodes) ending
  | atBlock head nodes ending => atBlock head (mapDeclarationsIn f nodes) ending
  | declaration d => declaration (f d)
  | n => n

/-- Change every declaration in nodes. -/
def mapDeclarationsIn (f : Declaration → Declaration) : List Node → List Node
  | [] => []
  | n :: ns => n.mapDeclarations f :: mapDeclarationsIn f ns

end

end Node

namespace Sheet

/-- All selectors. -/
def selectors (s : Sheet) : List Text := Node.selectorsIn s.nodes

/-- All declarations. -/
def declarations (s : Sheet) : List Declaration := Node.declarationsIn s.nodes

/-- Change every selector. -/
def mapSelectors (f : Text → Text) (s : Sheet) : Sheet :=
  { s with nodes := Node.mapSelectorsIn f s.nodes }

/-- Change every declaration. -/
def mapDeclarations (f : Declaration → Declaration) (s : Sheet) : Sheet :=
  { s with nodes := Node.mapDeclarationsIn f s.nodes }

end Sheet

end HostSheet
