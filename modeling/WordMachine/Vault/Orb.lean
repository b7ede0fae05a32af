import WordMachine.Vault.Search

/-!
# The orb vault

The grid holds numbers and operators in turn. Going from a number through an operator to the next
number applies that operation to the weight of the orb, so the rooms with numbers are the rooms of
the graph.

```text
  ( * ) ( 8 ) ( - ) ( 1 )        *  E  *  H
  ( 4 ) ( * ) ( 11) ( * )        B  *  F  *
  ( + ) ( 4 ) ( - ) ( 18)        *  C  *  G
  ( 22) ( - ) ( 9 ) ( * )        A  *  D  *
```
-/

namespace WordMachine.Vault.Orb

private def plus (n : Int) (rooms : List String) : Edge := ⟨⟨.add, n⟩, rooms⟩
private def minus (n : Int) (rooms : List String) : Edge := ⟨⟨.subtract, n⟩, rooms⟩
private def times (n : Int) (rooms : List String) : Edge := ⟨⟨.multiply, n⟩, rooms⟩

/-- The edges of each room in the order in which they are tried. -/
def table : List (String × List Edge) :=
  [ ("A", [plus 4 ["B", "C"], minus 4 ["C"], minus 9 ["D"]]),
    ("B", [times 8 ["E"], times 11 ["F"], times 4 ["B", "C"], plus 4 ["B", "C"]]),
    ("C", [times 8 ["E"], times 4 ["B", "C"], times 11 ["F"], plus 4 ["B", "C"],
      minus 11 ["F"], minus 18 ["G"], minus 9 ["D"], minus 4 ["C"]]),
    ("D", [minus 11 ["F"], minus 4 ["C"], minus 18 ["G"], times 18 ["G"], minus 9 ["D"],
      times 9 ["D"]]),
    ("E", [minus 1 ["H"], times 4 ["B", "C"], minus 11 ["F"], times 11 ["F"], times 8 ["E"],
      minus 8 ["E"]]),
    ("F", [minus 8 ["E"], minus 1 ["H"], times 8 ["E"], times 1 ["H"], times 4 ["B", "C"],
      times 18 ["G"], minus 4 ["C"], minus 18 ["G"], minus 9 ["D"], minus 11 ["F"],
      times 11 ["F"]]),
    ("G", [times 1 ["H"], times 11 ["F"], minus 11 ["F"], minus 4 ["C"], minus 9 ["D"],
      times 9 ["D"], times 18 ["G"], minus 18 ["G"]]),
    ("H", []) ]

def graph : Graph :=
  table.foldl (fun g (room, edges) => edges.foldl (·.connect room ·) (g.addRoom room)) .empty

def start : Position := ⟨"A", 22⟩

/-- The door, and what the orb must weigh there. -/
def goal : Position := ⟨"H", 30⟩

end WordMachine.Vault.Orb
