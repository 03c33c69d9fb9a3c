import Yarns.Base.OrderedMap
import Yarns.Data.Word

/-!
# The tree of `data/rbtree.cpp`

A `std::map<unsigned long, void*>`: `rbtree_insert` is `map::insert`, which does not
replace an existing key, and `rbtree_min` reads the first entry of a map that has one.
-/

namespace Yarns

open Base

abbrev Rbtree := OrderedMap ULong ULong

def rbtreeNew : Rbtree := OrderedMap.empty

def rbtreeInsert (tree : Rbtree) (key value : ULong) : Rbtree := tree.insert key value

def rbtreeRemove (tree : Rbtree) (key : ULong) : Rbtree := tree.erase key

def rbtreeSearch (tree : Rbtree) (key : ULong) : Option ULong := tree.find? key

def rbtreeSize (tree : Rbtree) : Nat := tree.size

def rbtreeEmpty (tree : Rbtree) : Bool := rbtreeSize tree = 0

def rbtreeMin (tree : Rbtree) : Option ULong := tree.min?

end Yarns
