import RedBlack.Algebra
import RedBlack.Arena.Basic
import RedBlack.Arena.Traversal
import RedBlack.Arena.Update
import RedBlack.Container
import RedBlack.Cursor
import RedBlack.Element.Comparators
import RedBlack.Element.Condition
import RedBlack.Element.Copies
import RedBlack.Holder
import RedBlack.OrderedSet.Action
import RedBlack.OrderedSet.Basic
import RedBlack.OrderedSet.Traversal
import RedBlack.Proofs.Algebra.Disagreement
import RedBlack.Proofs.Algebra.Kinds
import RedBlack.Proofs.Algebra.Laws
import RedBlack.Proofs.Algebra.Values
import RedBlack.Proofs.Arena.Comparisons
import RedBlack.Proofs.Arena.Deficit
import RedBlack.Proofs.Arena.InOrder
import RedBlack.Proofs.Arena.Insertion
import RedBlack.Proofs.Arena.Layout
import RedBlack.Proofs.Arena.Links
import RedBlack.Proofs.Arena.Mapping
import RedBlack.Proofs.Arena.Moments
import RedBlack.Proofs.Arena.Relinking
import RedBlack.Proofs.Arena.Removal
import RedBlack.Proofs.Arena.Repair
import RedBlack.Proofs.Arena.Search
import RedBlack.Proofs.Arena.Shape
import RedBlack.Proofs.Arena.Walk
import RedBlack.Proofs.Container
import RedBlack.Proofs.Cursor.Calls
import RedBlack.Proofs.Cursor.Journey
import RedBlack.Proofs.Cursor.Safety
import RedBlack.Proofs.Cursor.Search
import RedBlack.Proofs.Cursor.Tour
import RedBlack.Proofs.Cursor.World
import RedBlack.Proofs.History
import RedBlack.Proofs.Lock.Session
import RedBlack.Proofs.Lock.Simulation
import RedBlack.Proofs.Lock.Warnings
import RedBlack.Proofs.Operand
import RedBlack.Proofs.OrderedSet.Algebra
import RedBlack.Proofs.OrderedSet.Costs
import RedBlack.Proofs.OrderedSet.DeepCopy
import RedBlack.Proofs.OrderedSet.Drawing
import RedBlack.Proofs.OrderedSet.Iteration
import RedBlack.Proofs.OrderedSet.Reached
import RedBlack.Proofs.OrderedSet.Reference
import RedBlack.Proofs.OrderedSet.Refinement
import RedBlack.Proofs.OrderedSet.Representation
import RedBlack.Proofs.OrderedSet.Retention
import RedBlack.Proofs.OrderedSet.Soundness
import RedBlack.Proofs.OrderedSet.Traversal
import RedBlack.Proofs.Tree.Height
import RedBlack.Proofs.Tree.Mapping
import RedBlack.Proofs.Tree.Order
import RedBlack.Proofs.Tree.Rotations
import RedBlack.Proofs.Version
import RedBlack.Proofs.Workspace.Invariant
import RedBlack.Proofs.Workspace.Safety
import RedBlack.Proofs.Workspace.Sets
import RedBlack.Settings
import RedBlack.Text
import RedBlack.Traced
import RedBlack.Tree.Balance
import RedBlack.Tree.Basic
import RedBlack.Tree.Insertion
import RedBlack.Tree.Path
import RedBlack.Tree.Removal
import RedBlack.Workspace.Basic
import RedBlack.Workspace.Request
import RedBlack.Workspace.Session
