import Coverage.Pass.Plan

/-!
# Injected code

The trees that a pass adds. Each is built from a first identity; it uses as many consecutive identities as
its size says, and all its nodes that can carry a place carry the place of the code they count.
-/

namespace Coverage.Probe

open Syntax

def load (i : NodeId) : Node := .mk i (.plain .load) {} []

def stringConstant (i : NodeId) (place : Place) (s : String) : Node :=
  .mk i (.plain .constant) place [.constant (.str s), .none]

/-- The arguments of a call: the file name and the keys. -/
def arguments (place : Place) : NodeId → List String → List Node
  | _, [] => []
  | i, s :: ss => stringConstant i place s :: arguments place (i + 1) ss

def callSize (keys : List Key) : Nat := 6 + keys.length

/-- A call of a method of the counters with the file name and some keys. -/
def call (plan : Plan) (method : String) (keys : List Key) (place : Place) (i : NodeId) : Node :=
  .mk i (.plain .call) place
    [.child (.mk (i + 1) (.plain .attr) place
      [.child (.mk (i + 2) (.plain .name) place [.text plan.globalName, .child (load (i + 3))]),
        .text method, .child (load (i + 4))]),
      .many (arguments place (i + 5) (plan.filename :: keys)), .many []]

def counterSize : Nat := 8

/-- The statement that counts a key. -/
def counter (plan : Plan) (key : Key) (place : Place) (i : NodeId) : Node :=
  .mk i (.plain .exprStmt) place [.child (call plan "hit" [key] place (i + 1))]

def wrapperSize : Nat := 9

/-- An expression with a key that is counted before it is evaluated: counting gives no value, so an `or`
goes on to the expression. -/
def wrapper (plan : Plan) (key : Key) (e : Node) (i : NodeId) : Node :=
  .mk i .boolOp e.place
    [.child (.mk (i + 1) (.plain .or) {} []), .many [call plan "hit" [key] e.place (i + 2), e]]

def guardSize : Nat := 10

/-- A block that counts one key when it is left normally and another when it is left by an exception. -/
def guard (plan : Plan) (ok error : Key) (place : Place) (body : List Node) (i : NodeId) : Node :=
  .mk i (.plain .withStmt) place
    [.many [.mk (i + 1) (.plain .withItem) {} [.child (call plan "guard" [ok, error] place (i + 2)), .none]],
      .many body, .none]

def fallbackSize : Nat := 10

/-- The case that counts a key when no other case matches. -/
def fallback (plan : Plan) (key : Key) (place : Place) (i : NodeId) : Node :=
  .mk i .matchCase {}
    [.child (.mk (i + 1) (.plain .matchAs) place [.none, .none]), .none,
      .many [counter plan key place (i + 2)]]

end Coverage.Probe
