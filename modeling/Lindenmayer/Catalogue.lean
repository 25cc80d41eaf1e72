import Lindenmayer.Configuration

/-!
# A catalogue of Lindenmayer systems

Classic systems, ready to be drawn: curves and plants with literal rules, a bush
with weighted rules, and five plants with contextual rules.

The systems come from *The Algorithmic Beauty of Plants* (ABOP), *Graphical
applications of L-systems* (GALS), and *Lindenmayer Systems, Fractals, and Plants*
(LSFP).
-/

namespace Lindenmayer.Catalogue

/-- A system with literal rules. -/
def literalSystem (name : String) (order : Int64) (angle : Float) (start : String)
    (rules : List (String × String)) : Configuration where
  name
  order
  angle
  start := start.toList
  rules := .literal (rules.map fun (key, replacement) => (key.toList, replacement.toList))

/-! ## Curves -/

def dragon : Configuration :=
  literalSystem "Dragon" 10 90.0 "$FX" [("X", "X-YF-"), ("Y", "+FX+Y")]

def hilbert : Configuration :=
  literalSystem "Hilbert" 6 90.0 "A" [("A", "-BF+AFA+FB-"), ("B", "+AF-BFB-FA+")]

def kochSnowflake : Configuration :=
  literalSystem "Koch Snowflake" 4 60.0 "F++F++F" [("F", "F-F++F-F")]

def moore : Configuration :=
  literalSystem "Moore" 5 90.0 "$LFL+F+LFL" [("L", "-RF+LFL+FR-"), ("R", "+LF-RFR-FL+")]

def peano : Configuration :=
  literalSystem "Peano" 4 90.0 "$X"
    [("X", "XFYFX-F-YFXFY+F+XFYFX"), ("Y", "YFXFY+F+XFYFX-F-YFXFY")]

/-- A Penrose tiling by rhombs. Its lines are drawn anew in every generation, so
    those of the generation before are erased. -/
def penroseP3 : Configuration :=
  literalSystem "Penrose P3" 5 36.0 "(18)[X]++[X]++[X]++[X]++[X]"
    [("W", "YF++ZF----XF[-YF----WF]++"), ("X", "+YF--ZF[---WF--XF]+"),
      ("Y", "-WF++XF[+++YF++ZF]-"), ("Z", "--YF++++WF[+ZF++++XF]--XF"), ("F", "")]

def quadraticKochIsland : Configuration :=
  literalSystem "Quadratic Koch Island" 3 90.0 "F+F+F+F" [("F", "F-F+F+FFF-F-F+F")]

/-- The Sierpinski curve, with headings in its rules. -/
def sierpinski : Configuration :=
  literalSystem "Sierpinski" 5 45.0 "$A--FB--FC--FD--F"
    [("A", "A(-45)FB+FFD(45)FA"), ("B", "B(-135)FC+FFA(-45)FB"),
      ("C", "C(135)FD+FFB(-135)FC"), ("D", "D(45)FA+FFC(135)FD")]

def sierpinskiArrowhead : Configuration :=
  literalSystem "Sierpinski Arrowhead" 6 60.0 "XF" [("X", "YF-XF-Y"), ("Y", "XF+YF+X")]

/-- The Sierpinski carpet. The turtle crosses its holes without drawing. -/
def sierpinskiCarpet : Configuration :=
  literalSystem "Sierpinski Carpet" 5 90.0 "(45)F"
    [("F", "F+F-F-F-f+F+F+F-F"), ("f", "fff")]

def sierpinskiTriangle : Configuration :=
  literalSystem "Sierpinski Triangle" 6 60.0 "FXF++FF++FF"
    [("X", "++FXF--FXF--FXF++"), ("F", "FF")]

/-- The hexagonal Gosper curve. The two kinds of its edges are told apart by the
    symbol behind the `F`, so the keys have two symbols. -/
def gosperPseudo : Configuration :=
  literalSystem "ABOP Fig 1.11a(pseudo)" 4 60.0 "$Fl"
    [("Fl", "Fl+Fr++Fr-Fl--FlFl-Fr+"), ("Fr", "-Fl+FrFr++Fr+Fl--Fl-Fr")]

/-! ## Plants and figures -/

def abopFig1_24c : Configuration :=
  literalSystem "ABOP Fig 1.24c" 4 22.5 "$F" [("F", "FF-[-F+F+F]+[+F-F-F]")]

def abopFig1_24e : Configuration :=
  literalSystem "ABOP Fig 1.24e" 7 25.7 "$X" [("X", "F[+X][-X]FX"), ("F", "FF")]

/-- A figure whose turtle turns around. -/
def galsFig1d : Configuration :=
  literalSystem "GALS Fig 1d" 6 90.0 "$F" [("F", "F-FF|F-F")]

/-- A plant with filled leaves. The key `FX` stands before `F`, so the sides of the
    leaves do not grow. -/
def galsFig4 : Configuration :=
  literalSystem "GALS Fig 4" 4 30.0 "$T"
    [("T", "R-[T]++[++L]R[--L]+[T]--T"), ("R", "F[++L][--L]F"),
      ("L", "[\x7b-FX+FX+FX-|-FX+FX+FX\x7d]"), ("FX", "FX"), ("F", "FF")]

/-- A figure that is a single filled polygon. -/
def lsfpFig2_9 : Configuration :=
  literalSystem "LSFP Fig 2.9" 3 60.0 "(-60)\x7bXF-F-XF-F-XF-F\x7d"
    [("X", "XF-F-XF+F+F+XF+F-F-F+F-F-F+X")]

/-- The systems with literal rules. -/
def deterministic : List Configuration :=
  [dragon, hilbert, kochSnowflake, moore, peano, penroseP3, quadraticKochIsland, sierpinski,
    sierpinskiArrowhead, sierpinskiCarpet, sierpinskiTriangle, gosperPseudo, abopFig1_24c,
    abopFig1_24e, galsFig1d, galsFig4, lsfpFig2_9]

/-! ## A bush with weighted rules -/

/-- The name of the bush, which tells its weights. -/
def bushName (a b c : UInt32) : String :=
  "Stochastic(weights " ++ toString a ++ "," ++ toString b ++ "," ++ toString c ++ ")"

/-- The bush of section 1.7 of ABOP, with the weights of its three rules. -/
def stochasticBush (a b c : UInt32) : Configuration where
  name := bushName a b c
  order := 5
  angle := 25.7
  start := "$F".toList
  rules := .weighted ["F[+F]F[-F]F".toList, "F[+F]F".toList, "F[-F]F".toList]
    [Int64.ofNat a.toNat, Int64.ofNat b.toNat, Int64.ofNat c.toNat]

/-! ## Plants with contextual rules -/

/-- All contexts, from `000` to `111`: the left neighbour, the variable, the right
    neighbour. -/
def contextKeys : List Word :=
  ["0 < 0 > 0".toList, "0 < 0 > 1".toList, "0 < 1 > 0".toList, "0 < 1 > 1".toList,
    "1 < 0 > 0".toList, "1 < 0 > 1".toList, "1 < 1 > 0".toList, "1 < 1 > 1".toList]

/-- A plant by Hogeweg and Hesper, with its replacements in the order of the
    contexts. -/
def hogewegHesper (label : String) (order : Int64) (angle : Float) (start : String)
    (table : List String) : Configuration where
  name := "Hogeweg and Hesper " ++ label
  order
  angle
  start := start.toList
  rules := .contextual (.ofList (contextKeys.zip (table.map String.toList)))
  label := some label

def plantA : Configuration :=
  hogewegHesper "a" 30 22.5 "$F1F1F1" ["0", "1[+F1F1]", "1", "1", "0", "1F1", "0", "0"]

def plantB : Configuration :=
  hogewegHesper "b" 30 22.5 "$F1F1F1" ["1", "1[-F1F1]", "1", "1", "0", "1F1", "1", "0"]

def plantC : Configuration :=
  hogewegHesper "c" 26 25.75 "$F1F1F1" ["0", "1", "0", "1[+F1F1]", "0", "1F1", "0", "0"]

def plantD : Configuration :=
  hogewegHesper "d" 24 25.75 "$F0F1F1" ["1", "0", "0", "1F1", "1", "1[+F1F1]", "1", "0"]

def plantE : Configuration :=
  hogewegHesper "e" 30 22.5 "$F1F1F1" ["0", "1[-F1F1]", "1", "1", "0", "1F1", "1", "0"]

/-- The five plants of figure 1.31 of ABOP. -/
def hogewegHesperPlants : List Configuration := [plantA, plantB, plantC, plantD, plantE]

end Lindenmayer.Catalogue
