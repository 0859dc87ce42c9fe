import RichText.Tree

namespace RichText

namespace Kind

-- The number of offsets that a node takes by itself: a text its chars, a break one unless trailing.
def width : Kind → Nat
  | text s => s.length
  | lineBreak false => 1
  | _ => 0

end Kind

namespace Node

mutual

-- The nodes met when reading: parents before children, but nothing inside texts and breaks.
def flow : Node → List Node
  | mk i k cs => mk i k cs :: if k.isText || k.isBreak then [] else flowAll cs

def flowAll : List Node → List Node
  | [] => []
  | n :: ns => n.flow ++ flowAll ns

end

theorem flowAll_eq_flatMap (ns : List Node) : flowAll ns = ns.flatMap flow := by
  induction ns with
  | nil => rfl
  | cons n ns ih => simp [flowAll, ih]

end Node

namespace Lines

def extend (s : String) : List String → List String
  | [] => [s]
  | l :: ls => (s ++ l) :: ls

-- Texts run together, and each break that is not trailing ends a line.
def ofKinds : List Kind → List String
  | [] => [""]
  | .text s :: ks => extend s (ofKinds ks)
  | .lineBreak false :: ks => "" :: ofKinds ks
  | _ :: ks => ofKinds ks

-- The length of lines as offsets count it: every char, and one between two lines.
def measure (lines : List String) : Nat :=
  lines.length - 1 + (lines.map String.length).foldr (· + ·) 0

theorem ofKinds_ne_nil (ks : List Kind) : ofKinds ks ≠ [] := by
  fun_induction ofKinds ks with
  | case1 => simp
  | case2 s ks ih => cases h : ofKinds ks <;> simp [extend]
  | case3 ks ih => simp
  | case4 k ks _ _ ih => exact ih

theorem measure_extend {ls : List String} (h : ls ≠ []) (s : String) :
    measure (extend s ls) = s.length + measure ls := by
  cases ls with
  | nil => contradiction
  | cons l ls => simp [measure, extend]; omega

theorem measure_cons {ls : List String} (h : ls ≠ []) (l : String) :
    measure (l :: ls) = l.length + 1 + measure ls := by
  cases ls with
  | nil => contradiction
  | cons l' ls => simp [measure]; omega

end Lines

namespace Node

def lines (n : Node) : List String :=
  Lines.ofKinds (n.flow.map kind)

def linesBefore (n : Node) (stop : NodeId) : List String :=
  Lines.ofKinds ((n.flow.takeWhile (·.id ≠ stop)).map kind)

def charCount (n : Node) : Nat :=
  Lines.measure n.lines

def countBefore (n : Node) (stop : NodeId) : Nat :=
  Lines.measure (n.linesBefore stop)

end Node

namespace Tree

variable (t : Tree)

def lines (id : NodeId) : List String :=
  ((t.node? id).map Node.lines).getD [""]

def linesBefore (id stop : NodeId) : List String :=
  ((t.node? id).map (·.linesBefore stop)).getD [""]

-- The number of offsets that a node takes: its chars and its breaks that are not trailing.
def charCount (id : NodeId) : Nat :=
  Lines.measure (t.lines id)

def countBefore (id stop : NodeId) : Nat :=
  Lines.measure (t.linesBefore id stop)

def textLength (id : NodeId) : Nat :=
  ((t.node? id).map Node.textLength).getD 0

end Tree

end RichText
