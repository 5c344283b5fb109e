import TagTree.Template
import TagTree.Proofs.Substitution
import TagTree.Proofs.Unshifted
import TagTree.Proofs.Text.KeyOrder
import TagTree.Proofs.Text.Checked
import TagTree.Proofs.Waiting
import TagTree.Proofs.Marks
import TagTree.Proofs.Fragment
import TagTree.Proofs.Text.Literal
import TagTree.Proofs.Text.Advance
import TagTree.Proofs.Text.Shorthand
import TagTree.Proofs.Store.Comparison
import TagTree.Proofs.TableLookup
import TagTree.Proofs.Ancestor
import TagTree.Proofs.Iteration
import TagTree.Proofs.Indexing
import TagTree.Proofs.Counting
import TagTree.Proofs.Cooked
import TagTree.Proofs.Stream
